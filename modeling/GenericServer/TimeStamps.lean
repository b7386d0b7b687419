import GenericServer.FixedWidthNumerals
import GenericServer.LogRecords

/-!
# Time stamps

`Time::format_string` of `src/Time.cpp`, in front of the records of `Logger`. The fields are those
of `gmtime` and `gettimeofday`.
-/
namespace GenericServer.LogRecords

open FixedWidthNumerals

namespace Time

/-- What the fields of a `struct tm` and of a `struct timeval` can be, up to the year 9999. -/
structure InRange (t : Time) : Prop where
  year : t.tmYear + 1900 ≤ 9999
  mon : t.tmMon ≤ 11
  mday : t.tmMday ≤ 31
  hour : t.tmHour ≤ 23
  min : t.tmMin ≤ 59
  sec : t.tmSec ≤ 60
  usec : t.usec < 1000000

def fields (t : Time) : List ℕ :=
  [t.tmYear, t.tmMon, t.tmMday, t.tmHour, t.tmMin, t.tmSec, t.usec]

end Time

variable {t u : Time}

theorem padded_zero {w n : ℕ} (hn : n < 10 ^ (w + 1)) :
    padded '0' (w + 1) n = numeral (w + 1) n := leftpad_toDigits hn

theorem padded_year {n : ℕ} (hmin : 1000 ≤ n) (hmax : n < 10000) :
    padded ' ' 4 n = numeral 4 n := by
  have hlong : ¬ (Nat.toDigits 10 n).length ≤ 3 := by
    rw [Nat.length_toDigits_le_iff (by decide) (by decide)]
    omega
  have hnone : 4 - (Nat.toDigits 10 n).length = 0 := by omega
  rw [← leftpad_toDigits (w := 3) (by omega), padded, List.leftpad, List.leftpad, hnone,
    List.replicate_zero, List.replicate_zero]

theorem formatString_eq (h : t.InRange) : formatString t =
    numeral 4 (t.tmYear + 1900) ++ (numeral 2 (t.tmMon + 1) ++ (numeral 2 t.tmMday ++
      (' ' :: (numeral 2 t.tmHour ++ (':' :: (numeral 2 t.tmMin ++ (':' :: (numeral 2 t.tmSec ++
        ('.' :: (numeral 6 t.usec ++ [])))))))))) := by
  have hmon := h.mon
  have hmday := h.mday
  have hhour := h.hour
  have hmin := h.min
  have hsec := h.sec
  have husec := h.usec
  have hyear := h.year
  rw [formatString, padded_year (by omega) (by omega), padded_zero (by omega),
    padded_zero (by omega), padded_zero (by omega), padded_zero (by omega),
    padded_zero (by omega), padded_zero (by omega)]
  simp only [List.append_assoc, List.cons_append, List.nil_append, List.append_nil]

theorem bounds (h : t.InRange) : t.tmYear + 1900 < 10 ^ 4 ∧ t.tmMon + 1 < 10 ^ 2 ∧
    t.tmMday < 10 ^ 2 ∧ t.tmHour < 10 ^ 2 ∧ t.tmMin < 10 ^ 2 ∧ t.tmSec < 10 ^ 2 ∧
    t.usec < 10 ^ 6 := by
  obtain ⟨hyear, hmon, hmday, hhour, hmin, hsec, husec⟩ := h
  omega

theorem formatString_lt_iff (ht : t.InRange) (hu : u.InRange) :
    formatString t < formatString u ↔ t.fields < u.fields := by
  obtain ⟨htyear, htmon, htmday, hthour, htmin, htsec, htusec⟩ := bounds ht
  obtain ⟨huyear, humon, humday, huhour, humin, husec, huusec⟩ := bounds hu
  rw [formatString_eq ht, formatString_eq hu, numeral_append_lt_iff htyear huyear,
    numeral_append_lt_iff htmon humon, numeral_append_lt_iff htmday humday,
    List.cons_lt_cons_self, numeral_append_lt_iff hthour huhour, List.cons_lt_cons_self,
    numeral_append_lt_iff htmin humin, List.cons_lt_cons_self, numeral_append_lt_iff htsec husec,
    List.cons_lt_cons_self, numeral_append_lt_iff htusec huusec]
  simp only [Time.fields, List.cons_lt_cons_iff, Nat.add_lt_add_iff_right,
    Nat.add_right_cancel_iff, List.not_lt_nil]

theorem formatString_inj_iff (ht : t.InRange) (hu : u.InRange) :
    formatString t = formatString u ↔ t = u := by
  obtain ⟨htyear, htmon, htmday, hthour, htmin, htsec, htusec⟩ := bounds ht
  obtain ⟨huyear, humon, humday, huhour, humin, husec, huusec⟩ := bounds hu
  rw [formatString_eq ht, formatString_eq hu, numeral_append_eq_iff htyear huyear,
    numeral_append_eq_iff htmon humon, numeral_append_eq_iff htmday humday,
    List.cons.injEq, numeral_append_eq_iff hthour huhour, List.cons.injEq,
    numeral_append_eq_iff htmin humin, List.cons.injEq, numeral_append_eq_iff htsec husec,
    List.cons.injEq, numeral_append_eq_iff htusec huusec]
  cases t
  cases u
  simp only [Time.mk.injEq, Nat.add_right_cancel_iff, true_and, and_true]

/-- Time stamps have one length, which leaves room in the buffer of `Logger::format`, and are
ordered as texts exactly as their times; no two times have the same one. -/
theorem time_stamps_ordered (ht : t.InRange) (hu : u.InRange) :
    (formatString t).length = 24 ∧
      (formatString t < formatString u ↔ t.fields < u.fields) ∧
      (formatString t = formatString u ↔ t = u) := by
  refine ⟨?_, formatString_lt_iff ht hu, formatString_inj_iff ht hu⟩
  rw [formatString_eq ht]
  simp only [List.length_append, List.length_cons, length_numeral, List.length_nil]

/-- The last microsecond of a year, and the next one. -/
theorem time_stamps_ordered_new_year :
    let t : Time := ⟨119, 11, 31, 23, 59, 59, 999999⟩
    let u : Time := ⟨120, 0, 1, 0, 0, 0, 0⟩
    (formatString t).length = 24 ∧ (formatString t < formatString u ↔ t.fields < u.fields) ∧
      (formatString t = formatString u ↔ t = u) :=
  time_stamps_ordered ⟨by decide, by decide, by decide, by decide, by decide, by decide, by decide⟩
    ⟨by decide, by decide, by decide, by decide, by decide, by decide, by decide⟩

end GenericServer.LogRecords
