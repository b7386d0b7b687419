import Mathlib.Data.List.Chain
import Mathlib.Data.List.Infix

/-!
# Blocks in a merged sequence

A sequence is merged from several sources. Each element has a key, which says what block it
belongs to, and a flag, which says that its block goes on behind it. If in the merged
sequence a flagged element is only ever followed by an element of the same block, every
block stands there in one piece.
-/
namespace GenericServer.ContiguousBlocks

variable {α κ : Type*} {key : α → κ} {inner : α → Bool} {l l' : List α}

/-- Behind an element whose block goes on comes an element of the same block. -/
def Linked (key : α → κ) (inner : α → Bool) (l : List α) : Prop :=
  l.IsChain fun x y => inner x = true → key y = key x

/-- The sequence does not end inside a block. -/
def Closed (inner : α → Bool) (l : List α) : Prop := ∀ x ∈ l.getLast?, inner x = false

/-- What has arrived of the block `D` with key `k` stands in one piece, and something can only
follow when it is the whole block. -/
def InOnePiece (key : α → κ) (k : κ) (l D : List α) : Prop :=
  ∃ pre post j, l = pre ++ D.take j ++ post ∧ (∀ x ∈ pre ++ post, key x ≠ k) ∧
    (post = [] ∨ D.length ≤ j)

/-- The whole block `D` with key `k` stands in one piece. -/
def Whole (key : α → κ) (k : κ) (l D : List α) : Prop :=
  ∃ pre post, l = pre ++ D ++ post ∧ ∀ x ∈ pre ++ post, key x ≠ k

theorem linked_nil : Linked key inner [] := List.isChain_nil

theorem closed_nil : Closed inner [] := by
  intro x hx
  cases hx

theorem Linked.of_prefix (h : Linked key inner l') (hp : l <+: l') : Linked key inner l :=
  List.IsChain.prefix h hp

theorem Linked.append_of_closed (h : Linked key inner l) (hc : Closed inner l)
    (h' : Linked key inner l') : Linked key inner (l ++ l') := by
  apply List.IsChain.append h h'
  intro x hx y _ hinner
  rw [hc x hx] at hinner
  cases hinner

theorem linked_of_key {k : κ} (h : ∀ x ∈ l, key x = k) : Linked key inner l := by
  induction l with
  | nil => exact linked_nil
  | cons x l ih =>
    refine List.isChain_cons.mpr ⟨fun y hy _ => ?_, ih fun y hy => h y (List.mem_cons_of_mem x hy)⟩
    rw [h x List.mem_cons_self, h y (List.mem_cons_of_mem x (List.mem_of_mem_head? hy))]

theorem closed_append_of_not_inner (hc : Closed inner l) (h : ∀ x ∈ l', inner x = false) :
    Closed inner (l ++ l') := by
  intro x hx
  rw [List.getLast?_append] at hx
  cases hl : l'.getLast? with
  | none =>
    rw [hl] at hx
    exact hc x hx
  | some y =>
    rw [hl] at hx
    cases hx
    exact h x (List.mem_of_getLast? hl)

theorem closed_append_of_ne_nil (h : Closed inner l') (hne : l' ≠ []) : Closed inner (l ++ l') := by
  intro x hx
  rw [List.getLast?_append_of_ne_nil _ hne] at hx
  exact h x hx

theorem mem_getLast?_filter {p : α → Bool} {x : α} (hx : x ∈ l.getLast?) (hp : p x = true) :
    x ∈ (l.filter p).getLast? := by
  obtain ⟨init, rfl⟩ := List.getLast?_eq_some_iff.mp hx
  rw [List.filter_append, List.filter_cons_of_pos hp, List.filter_nil,
    List.getLast?_append_of_ne_nil _ (List.cons_ne_nil x [])]
  exact rfl

/-- More elements of one source are merged behind the sequence: its own elements stay linked, and
no other source has been left inside a block. -/
theorem Linked.append_of_source {ι : Type*} [DecidableEq ι] (h : Linked key inner l)
    (source : α → ι) (i : ι) (hown : Linked key inner (l.filter (source · = i) ++ l'))
    (hothers : ∀ i', i' ≠ i → Closed inner (l.filter (source · = i'))) :
    Linked key inner (l ++ l') := by
  obtain ⟨-, h', hglue⟩ := List.isChain_append.mp hown
  apply List.IsChain.append h h'
  intro x hx y hy hopen
  by_cases hsource : source x = i
  · exact hglue x (mem_getLast?_filter hx (by simpa using hsource)) y hy hopen
  · have hclosed := hothers (source x) hsource x (mem_getLast?_filter hx (by simp))
    rw [hclosed] at hopen
    cases hopen

variable [DecidableEq κ]

/-- The elements of one block stand in one piece: the induction is on the merged sequence,
and a flagged head forces the next element to belong to the block. -/
theorem Linked.exists_block {k : κ} (h : Linked key inner l)
    (hne : l.filter (key · = k) ≠ [])
    (hinner : ∀ x ∈ (l.filter (key · = k)).dropLast, inner x = true) :
    ∃ pre post, l = pre ++ l.filter (key · = k) ++ post ∧ (∀ x ∈ pre ++ post, key x ≠ k) ∧
      (post = [] ∨ Closed inner (l.filter (key · = k))) := by
  induction l with
  | nil => exact absurd rfl hne
  | cons x l ih =>
    obtain ⟨hhead, htail⟩ := List.isChain_cons.mp h
    by_cases hx : key x = k
    · have hfilter : (x :: l).filter (key · = k) = x :: l.filter (key · = k) := by simp [hx]
      rw [hfilter] at hinner ⊢
      by_cases hrest : l.filter (key · = k) = []
      · have hfree : ∀ y ∈ l, key y ≠ k := by simpa using hrest
        rw [hrest]
        refine ⟨[], l, by simp, by simpa using hfree, ?_⟩
        cases l with
        | nil => exact .inl rfl
        | cons y l =>
          right
          intro z hz
          cases hz
          by_contra hopen
          have hy := hhead y rfl (by simpa using hopen)
          exact hfree y List.mem_cons_self (hy.trans hx)
      · obtain ⟨pre, post, hl, hfree, hpost⟩ := ih htail hrest fun y hy =>
          hinner y (by rw [List.dropLast_cons_of_ne_nil hrest]; exact List.mem_cons_of_mem x hy)
        have hopen : inner x = true :=
          hinner x (by rw [List.dropLast_cons_of_ne_nil hrest]; exact List.mem_cons_self)
        have hpre : pre = [] := by
          cases pre with
          | nil => rfl
          | cons y pre =>
            have hy := hhead y (by rw [hl]; rfl) hopen
            exact absurd (hy.trans hx) (hfree y (by simp))
        subst hpre
        refine ⟨[], post, ?_, hfree, hpost.imp_right fun hc => ?_⟩
        · rw [List.nil_append, List.cons_append, List.cons.injEq]
          exact ⟨rfl, by simpa using hl⟩
        · exact closed_append_of_ne_nil (l := [x]) hc hrest
    · have hfilter : (x :: l).filter (key · = k) = l.filter (key · = k) := by simp [hx]
      rw [hfilter] at hne hinner ⊢
      obtain ⟨pre, post, hl, hfree, hpost⟩ := ih htail hne hinner
      refine ⟨x :: pre, post, ?_, ?_, hpost⟩
      · rw [List.cons_append, List.cons_append, ← hl]
      · intro y hy
        rcases List.mem_cons.mp hy with rfl | hy
        · exact hx
        · exact hfree y hy

theorem Linked.inOnePiece {k : κ} {D : List α} (h : Linked key inner l)
    (hD : l.filter (key · = k) <+: D) (hinner : ∀ x ∈ D.dropLast, inner x = true) :
    InOnePiece key k l D := by
  obtain ⟨rest, hrest⟩ := hD
  by_cases hne : l.filter (key · = k) = []
  · refine ⟨l, [], 0, by simp, ?_, .inl rfl⟩
    simpa using hne
  · have hopen : ∀ x ∈ (l.filter (key · = k)).dropLast, inner x = true := by
      intro x hx
      apply hinner x
      rw [← hrest, List.dropLast_append]
      split_ifs
      · exact hx
      · exact List.mem_append_left _ (List.mem_of_mem_dropLast hx)
    obtain ⟨pre, post, hl, hfree, hpost⟩ := h.exists_block hne hopen
    refine ⟨pre, post, (l.filter (key · = k)).length, ?_, hfree, hpost.imp_right fun hc => ?_⟩
    · rw [← hrest, List.take_left]
      exact hl
    · -- an incomplete block would end in an element whose block goes on
      by_contra hshort
      have hrest' : rest ≠ [] := by
        rintro rfl
        rw [← hrest] at hshort
        simp at hshort
      have hlast := hc _ (List.getLast_mem_getLast? hne)
      rw [hinner _ ?_] at hlast
      · cases hlast
      · rw [← hrest, List.dropLast_append_of_ne_nil hrest']
        exact List.mem_append_left _ (List.getLast_mem hne)

theorem InOnePiece.whole {k : κ} {D : List α} (h : InOnePiece key k l D)
    (hD : l.filter (key · = k) = D) : Whole key k l D := by
  obtain ⟨pre, post, j, rfl, hfree, -⟩ := h
  have hpre : pre.filter (key · = k) = [] := by
    simpa using fun x hx => hfree x (List.mem_append_left post hx)
  have hpost : post.filter (key · = k) = [] := by
    simpa using fun x hx => hfree x (List.mem_append_right pre hx)
  rw [List.filter_append, List.filter_append, hpre, hpost, List.nil_append, List.append_nil] at hD
  have hlength := List.length_filter_le (key · = k) (D.take j)
  rw [hD, List.length_take] at hlength
  have hwhole : D.take j = D := List.take_of_length_le (by omega)
  exact ⟨pre, post, by rw [hwhole], hfree⟩

end GenericServer.ContiguousBlocks
