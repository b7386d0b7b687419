import GenericServer.Buffer
import GenericServer.IntegerFormatting
import GenericServer.TextPieces

/-!
# The stream of a log record

`LogStream` of `src/log/LogStream.h` and `LogStream.cpp`, over the `FixedBuffer` of
`src/Buffer.h`.
-/
namespace GenericServer.LogStream

open BufferBase BlockMemory Decimals IntegerFormatting TextPieces

def LOGSTREAM_BUFFER_SIZE : ℕ := 2 ^ 8
def MAX_LEN : ℕ := 2 ^ 10

/-- A length converted to `int`. -/
def toInt (n : ℕ) : ℤ := (BitVec.ofNat 32 n).toInt

/-- The integer types with an `operator<<`. -/
inductive IntegerType
  | int
  | unsignedInt
  | long
  | unsignedLong
  | longLong
  | unsignedLongLong
  deriving DecidableEq, Repr

def IntegerType.type : IntegerType → IntType
  | .int => IntegerFormatting.int
  | .unsignedInt => ⟨false, 32, IntegerFormatting.int.le_width⟩
  | .long => ⟨true, 64, by decide⟩
  | .unsignedLong => ⟨false, 64, by decide⟩
  | .longLong => ⟨true, 64, by decide⟩
  | .unsignedLongLong => ⟨false, 64, by decide⟩

structure Integer where
  type : IntegerType
  value : ℤ
  inRange : type.type.InRange value

/-- One `operator<<`. A C string is given by the bytes before its `NUL`, unless it is the null
pointer, and a floating-point number by the text that `std::to_string` makes of it. -/
inductive Insertion
  | char (c : Char)
  | cString (str : Option (List Char))
  | simpleString (str : List Char)
  | string (str : List Char)
  | integer (v : Integer)
  | floating (text : List Char)

def Insertion.text : Insertion → List Char
  | .char c => [c]
  | .cString str => str.getD []
  | .simpleString str => str
  | .string str => str
  | .integer v => decimal v.value
  | .floating text => text

/-- `m_buffer.append(str_.c_str(), str_.length())`. -/
def appendString (b : BufferBase Char) (str : List Char) : BufferBase Char :=
  (b.append str (toInt str.length)).1

/-- `m_buffer.append(str_, strnlen(str_, MAX_LEN))`. -/
def appendCString (b : BufferBase Char) (str : List Char) : BufferBase Char :=
  (b.append str (toInt (min str.length MAX_LEN))).1

def insert (b : BufferBase Char) : Insertion → BufferBase Char
  | .char c => (b.appendChar c).1
  | .cString (some str) => appendCString b str
  | .cString none => b
  | .simpleString str => appendString b str
  | .string str => appendString b str
  | .integer v => appendString b (decimal v.value)
  | .floating text => appendString b text

def new (mem : ℤ → Char) (data : ℤ) : BufferBase Char := .new mem data LOGSTREAM_BUFFER_SIZE

/-- The part of its text that an insertion asks the buffer to append. -/
def Insertion.asked : Insertion → List Char
  | .char c => [c]
  | .cString str => (str.getD []).take MAX_LEN
  | .simpleString str => str.take (toInt str.length).toNat
  | .string str => str.take (toInt str.length).toNat
  | .integer v => decimal v.value
  | .floating text => text.take (toInt text.length).toNat

/-- A string has a length that fits in an `int`. -/
def Insertion.Short : Insertion → Prop
  | .simpleString str => str.length < 2 ^ 31
  | .string str => str.length < 2 ^ 31
  | .floating text => text.length < 2 ^ 31
  | .char _ => True
  | .cString _ => True
  | .integer _ => True

variable {b : BufferBase Char} {x : Insertion} {xs : List Insertion}

theorem toInt_eq {n : ℕ} (h : n < 2 ^ 31) : toInt n = n := by
  rw [toInt, BitVec.toInt_ofNat', Int.bmod_def]
  omega

theorem toInt_le (n : ℕ) : toInt n ≤ n := by
  rw [toInt, BitVec.toInt_ofNat', Int.bmod_def]
  omega

theorem take_toInt {str : List Char} (h : str.length < 2 ^ 31) :
    str.take (toInt str.length).toNat = str := by
  rw [toInt_eq h, Int.toNat_natCast, List.take_length]

theorem length_decimal_lt (v : Integer) : (decimal v.value).length < 2 ^ 31 := by
  have hle := length_decimal_le_width v.inRange
  have hwidth : v.type.type.width ≤ 64 := by cases v.type <;> decide
  omega

/-! ## One insertion -/

/-- The buffer of a stream has not been read from, and it holds `text`. -/
structure Holds (b : BufferBase Char) (text : List Char) : Prop where
  ordered : b.Ordered
  rptr : b.mRptr = b.mData
  size : b.mEnd = b.mData + LOGSTREAM_BUFFER_SIZE
  content : b.unread = text

variable {text : List Char}

theorem Holds.wptr (h : Holds b text) : b.mWptr = b.mData + text.length := by
  have hle := h.ordered.rptr_le
  have hptr := h.rptr
  rw [← h.content, unread, length_readBlock, dataSize]
  omega

theorem Holds.length_le (h : Holds b text) : text.length ≤ LOGSTREAM_BUFFER_SIZE := by
  have hle := h.ordered.wptr_le
  have hwptr := h.wptr
  have hsize := h.size
  omega

theorem Holds.remainSize (h : Holds b text) :
    b.remainSize = (LOGSTREAM_BUFFER_SIZE - text.length : ℕ) := by
  have hle := h.length_le
  rw [BufferBase.remainSize, h.wptr, h.size]
  omega

theorem append_rptr (b : BufferBase Char) (buf : List Char) (len : ℤ) :
    (b.append buf len).1.mRptr = b.mRptr := by
  rcases le_or_gt len 0 with hneg | hpos
  · rw [BufferBase.append, if_pos hneg]
  · rw [append_eq b buf hpos]

theorem Holds.append (h : Holds b text) {buf : List Char} {len : ℤ} (hlen : len ≤ buf.length) :
    Holds (b.append buf len).1 ((text ++ buf.take len.toNat).take LOGSTREAM_BUFFER_SIZE) := by
  obtain ⟨hordered, hunread, -⟩ := append_spec h.ordered hlen
  obtain ⟨hdata, hend⟩ := append_ends b buf len
  refine ⟨hordered, (append_rptr b buf len).trans (h.rptr.trans hdata.symm), ?_, ?_⟩
  · rw [hend, hdata, h.size]
  · rw [hunread, h.content, List.take_append, List.take_of_length_le h.length_le, List.take_take]
    congr 2
    rcases le_or_gt len 0 with hneg | hpos
    · rw [BufferBase.append, if_pos hneg]
      omega
    · rw [append_eq b buf hpos, h.remainSize]
      omega

theorem Holds.appendString (h : Holds b text) (str : List Char) : Holds (appendString b str)
    ((text ++ str.take (toInt str.length).toNat).take LOGSTREAM_BUFFER_SIZE) := by
  unfold LogStream.appendString
  exact h.append (toInt_le _)

theorem Holds.appendCString (h : Holds b text) (str : List Char) : Holds (appendCString b str)
    ((text ++ str.take MAX_LEN).take LOGSTREAM_BUFFER_SIZE) := by
  have hmin : toInt (min str.length MAX_LEN) = (min str.length MAX_LEN : ℕ) :=
    toInt_eq (lt_of_le_of_lt (min_le_right _ _) (by decide))
  have hcut : str.take (min str.length MAX_LEN) = str.take MAX_LEN := by
    rw [min_comm, ← List.take_take, List.take_length]
  have hlen : toInt (min str.length MAX_LEN) ≤ str.length := by
    rw [hmin]
    exact Int.ofNat_le.mpr (min_le_left _ _)
  have happ := h.append hlen
  rw [hmin, Int.toNat_natCast, hcut] at happ
  unfold LogStream.appendCString
  rw [hmin]
  exact happ

theorem Holds.insert (h : Holds b text) (x : Insertion) :
    Holds (insert b x) ((text ++ x.asked).take LOGSTREAM_BUFFER_SIZE) := by
  cases x with
  | char c =>
    have hlen : (1 : ℤ) ≤ [c].length := le_refl _
    have happ := h.append hlen
    rw [← appendChar_eq h.ordered] at happ
    exact happ
  | cString str =>
    cases str with
    | none =>
      have hsame : (text ++ (Insertion.cString none).asked).take LOGSTREAM_BUFFER_SIZE = text := by
        rw [Insertion.asked, Option.getD_none, List.take_nil, List.append_nil,
          List.take_of_length_le h.length_le]
      rw [hsame]
      exact h
    | some str => exact h.appendCString str
  | simpleString str => exact h.appendString str
  | string str => exact h.appendString str
  | integer v =>
    have happ := h.appendString (decimal v.value)
    rw [take_toInt (length_decimal_lt v)] at happ
    exact happ
  | floating text => exact h.appendString text

/-! ## Every sequence of insertions -/

theorem holds_new (mem : ℤ → Char) (data : ℤ) : Holds (new mem data) [] where
  ordered := ordered_new mem data LOGSTREAM_BUFFER_SIZE
  rptr := rfl
  size := rfl
  content := unread_new mem data LOGSTREAM_BUFFER_SIZE

def stream (mem : ℤ → Char) (data : ℤ) (xs : List Insertion) : BufferBase Char :=
  xs.foldl insert (new mem data)

theorem Holds.foldl (h : Holds b text) (xs : List Insertion) : Holds (xs.foldl LogStream.insert b)
    (xs.foldl (fun text x => (text ++ x.asked).take LOGSTREAM_BUFFER_SIZE) text) := by
  induction xs generalizing b text with
  | nil => exact h
  | cons x xs ih => exact ih (h.insert x)

theorem holds_stream (mem : ℤ → Char) (data : ℤ) (xs : List Insertion) :
    Holds (stream mem data xs) ((xs.flatMap Insertion.asked).take LOGSTREAM_BUFFER_SIZE) := by
  have hsink := foldl_take_append LOGSTREAM_BUFFER_SIZE Insertion.asked xs []
  rw [List.take_nil, List.nil_append] at hsink
  rw [← hsink]
  exact (holds_new mem data).foldl xs

theorem Insertion.Short.asked_eq (h : x.Short) :
    ∃ k, LOGSTREAM_BUFFER_SIZE ≤ k ∧ x.asked = x.text.take k := by
  have hwhole : ∀ str : List Char, ∃ k, LOGSTREAM_BUFFER_SIZE ≤ k ∧ str = str.take k := fun str =>
    ⟨max LOGSTREAM_BUFFER_SIZE str.length, le_max_left _ _,
      (List.take_of_length_le (le_max_right _ _)).symm⟩
  cases x with
  | char c => exact hwhole [c]
  | cString str => exact ⟨MAX_LEN, by decide, rfl⟩
  | simpleString str =>
    rw [Insertion.asked, take_toInt h]
    exact hwhole str
  | string str =>
    rw [Insertion.asked, take_toInt h]
    exact hwhole str
  | integer v => exact hwhole (decimal v.value)
  | floating text =>
    rw [Insertion.asked, take_toInt h]
    exact hwhole text

/-- The stream holds the first 256 bytes of all the texts, C strings in full; when it is full,
nothing more comes in. -/
theorem stream_truncates (mem : ℤ → Char) (data : ℤ) {xs : List Insertion}
    (h : ∀ x ∈ xs, x.Short) :
    (stream mem data xs).unread = (xs.flatMap Insertion.text).take LOGSTREAM_BUFFER_SIZE ∧
      ∀ ys zs, xs = ys ++ zs → LOGSTREAM_BUFFER_SIZE ≤ (ys.flatMap Insertion.text).length →
        (stream mem data xs).unread = (stream mem data ys).unread := by
  have hall : ∀ ys, (∀ x ∈ ys, x.Short) →
      (stream mem data ys).unread = (ys.flatMap Insertion.text).take LOGSTREAM_BUFFER_SIZE :=
    fun ys hys => (holds_stream mem data ys).content.trans
      (take_flatMap_of_take fun x hx => (hys x hx).asked_eq)
  refine ⟨hall xs h, fun ys zs hsplit hfull => ?_⟩
  rw [hall xs h, hall ys fun x hx => h x (hsplit ▸ List.mem_append_left zs hx), hsplit,
    List.flatMap_append, List.take_append_of_le_length hfull]

/-- A text that is cut, and a character after it. -/
theorem stream_truncates_long :
    let xs := [.integer ⟨.long, -7, by decide⟩, .cString (some (List.replicate 300 'x')), .char '.']
    (stream (fun _ => ' ') 0 xs).unread =
        (xs.flatMap Insertion.text).take LOGSTREAM_BUFFER_SIZE ∧
      ∀ ys zs, xs = ys ++ zs → LOGSTREAM_BUFFER_SIZE ≤ (ys.flatMap Insertion.text).length →
        (stream (fun _ => ' ') 0 xs).unread = (stream (fun _ => ' ') 0 ys).unread :=
  stream_truncates (fun _ => ' ') 0 (by
    intro x hx
    simp only [List.mem_cons, List.not_mem_nil, or_false] at hx
    rcases hx with rfl | rfl | rfl <;> trivial)

end GenericServer.LogStream
