import GenericServer.ConnectionTable
import GenericServer.LowestNumbers
import Mathlib.Data.Int.Range

/-!
# Stale entries of the connection table

`TCPConnection::handleClose` leaves the entry of its connection in `TCPServer::m_connMap`, and the
entry keeps the connection and its buffers. What is left in the table, and how much that can be.
-/
namespace GenericServer.ConnectionTable

open TransitionRuns LowestNumbers

def Server.live (s : Server) : Finset ℕ :=
  (Finset.range s.count).filter fun c => (s.conn c).closed = false

/-- A connection that has been closed is closed again only while its number is not in use. -/
def ClosesOwn (s : Server) (c : ℕ) : Prop := (s.conn c).closed = false ∨ Harmless s c

/-- `accept4` gives out the lowest number that is not in use; the rest of the process has the
descriptors in `reserved`. -/
def Lowest (reserved : ℤ → Prop) (s : Server) (fd : ℤ) : Prop :=
  ¬ reserved fd ∧ ∀ n, 0 ≤ n → n < fd → ¬ reserved n → s.kernel n = true

/-- No connection is closed twice for another one. -/
def ClosesFit (s : Server) : Label → Prop
  | .connected c shut => shut = true → ClosesOwn s c
  | .handleClose c => ClosesOwn s c
  | .shutdown c => ClosesOwn s c
  | .accept _ => True
  | .insert => True

/-- At most `N` connections are live at a time, under the lowest free numbers. -/
def WithinLimit (reserved : ℤ → Prop) (N : ℕ) (s : Server) : Label → Prop
  | .accept fd => Lowest reserved s fd ∧ s.live.card < N
  | .insert => True
  | .connected _ _ => True
  | .handleClose _ => True
  | .shutdown _ => True

/-- Connection `c` has been inserted last of those that were accepted under the number `fd`. -/
def Latest (s : Server) (fd : ℤ) (c : ℕ) : Prop :=
  (c < s.count ∧ (s.conn c).acceptedFd = fd ∧ s.accepting ≠ some c) ∧
    ∀ d < s.count, (s.conn d).acceptedFd = fd → s.accepting ≠ some d → d ≤ c

/-- The table lists the live connections, and under any other number at most the connection that
was there last. -/
structure Listing (s : Server) : Prop where
  numbers : ∀ c < s.count, 0 ≤ (s.conn c).acceptedFd
  owns : ∀ c fd, Live s c fd → (s.conn c).mFd = fd ∧ s.kernel fd = true
  opened : ∀ fd, s.kernel fd = true → ∃ c, Live s c fd
  unique : ∀ c d fd, Live s c fd → Live s d fd → c = d
  listed : ∀ c fd, Live s c fd → s.accepting ≠ some c → s.connMap fd = some c
  latest : ∀ fd c, s.connMap fd = some c → Latest s fd c
  accepting : ∀ c, s.accepting = some c →
    c + 1 = s.count ∧ ∀ d, Live s d (s.conn c).acceptedFd → d = c
  pending : ∀ c ∈ s.pending, c < s.count

theorem listing_new (pool : Bool) : Listing (Server.new pool) where
  numbers _ h := absurd h (Nat.not_lt_zero _)
  owns _ _ h := absurd h.1 (Nat.not_lt_zero _)
  opened _ h := by cases h
  unique _ _ _ h _ := absurd h.1 (Nat.not_lt_zero _)
  listed _ _ h _ := absurd h.1 (Nat.not_lt_zero _)
  latest _ _ h := by cases h
  accepting _ h := by cases h
  pending _ h := absurd h List.not_mem_nil

namespace Listing

variable {s s' : Server} {c : ℕ} {fd : ℤ} {l : Label}

theorem close (h : Listing s) (hlt : c < s.count) (hfit : ClosesOwn s c) {x : Connection}
    (hclosed : x.closed = true) (hfd : x.acceptedFd = (s.conn c).acceptedFd) {m : ℤ}
    (hm : m = (s.conn c).mFd ∨ m = -1) :
    Listing { s with
      conn := Function.update s.conn c x
      kernel := Function.update s.kernel (s.conn c).mFd false
      connMap := Function.update s.connMap m none } := by
  have hconn : ∀ d, (Function.update s.conn c x d).acceptedFd = (s.conn d).acceptedFd := by
    intro d
    by_cases hd : d = c
    · subst hd
      rw [Function.update_self, hfd]
    · rw [Function.update_of_ne hd]
  have hlive : ∀ d n, Live { s with
      conn := Function.update s.conn c x
      kernel := Function.update s.kernel (s.conn c).mFd false
      connMap := Function.update s.connMap m none } d n → Live s d n ∧ d ≠ c := by
    rintro d n ⟨hd, hopen, hn⟩
    have hne : d ≠ c := by
      rintro rfl
      simp only [Function.update_self, hclosed] at hopen
      cases hopen
    simp only [Function.update_of_ne hne] at hopen hn
    exact ⟨⟨hd, hopen, hn⟩, hne⟩
  -- the number belongs to no other connection
  have hnumber : ∀ d n, Live s d n → d ≠ c → n ≠ (s.conn c).mFd ∧ n ≠ m := by
    intro d n hd hne
    have hother : n ≠ (s.conn c).mFd := by
      rintro rfl
      rcases hfit with hopen | ⟨-, hfree⟩
      · have hself : Live s c (s.conn c).acceptedFd := ⟨hlt, hopen, rfl⟩
        rw [(h.owns c _ hself).1] at hd
        exact hne (h.unique d c _ hd hself)
      · rw [(h.owns d _ hd).2] at hfree
        cases hfree
    refine ⟨hother, ?_⟩
    rcases hm with rfl | rfl
    · exact hother
    · have hpos := h.numbers d hd.1
      rw [hd.2.2] at hpos
      omega
  refine ⟨fun d hd => ?_, fun d n hd => ?_, fun n hn => ?_, fun d e n hd he => ?_,
    fun d n hd hacc => ?_, fun n d hd => ?_, fun d hd => ?_, h.pending⟩
  · rw [hconn d]
    exact h.numbers d hd
  · obtain ⟨hold, hne⟩ := hlive d n hd
    simp only [Function.update_of_ne hne, Function.update_of_ne (hnumber d n hold hne).1]
    exact h.owns d n hold
  · have hne : n ≠ (s.conn c).mFd := by
      rintro rfl
      simp only [Function.update_self] at hn
      cases hn
    simp only [Function.update_of_ne hne] at hn
    obtain ⟨d, hd⟩ := h.opened n hn
    have hdc : d ≠ c := by
      rintro rfl
      exact hne (h.owns d n hd).1.symm
    refine ⟨d, hd.1, ?_, ?_⟩
    · simp only [Function.update_of_ne hdc]
      exact hd.2.1
    · simp only [Function.update_of_ne hdc]
      exact hd.2.2
  · exact h.unique d e n (hlive d n hd).1 (hlive e n he).1
  · obtain ⟨hold, hne⟩ := hlive d n hd
    simp only [Function.update_of_ne (hnumber d n hold hne).2]
    exact h.listed d n hold hacc
  · have hne : n ≠ m := by
      rintro rfl
      simp only [Function.update_self] at hd
      cases hd
    simp only [Function.update_of_ne hne] at hd
    obtain ⟨⟨hdlt, hdfd, hdacc⟩, hmax⟩ := h.latest n d hd
    refine ⟨⟨hdlt, (hconn d).trans hdfd, hdacc⟩, fun e he hefd heacc => ?_⟩
    exact hmax e he ((hconn e).symm.trans hefd) heacc
  · obtain ⟨hcount, hfresh⟩ := h.accepting d hd
    refine ⟨hcount, fun e he => ?_⟩
    have hold := (hlive e _ he).1
    rw [hconn d] at hold
    exact hfresh e hold

theorem shutdown (h : Listing s) (hlt : c < s.count) (hfit : ClosesOwn s c) :
    Listing (s.shutdown c) :=
  h.close (x := { s.conn c with closed := true }) hlt hfit rfl rfl (.inl rfl)

theorem handleClose (h : Listing s) (hlt : c < s.count) (hfit : ClosesOwn s c) :
    Listing (s.handleClose c) := by
  have hclose := h.close (x := ⟨-1, (s.conn c).acceptedFd, true⟩) hlt hfit rfl rfl
    (m := -1) (.inr rfl)
  have heq : s.handleClose c = { s with
      conn := Function.update s.conn c ⟨-1, (s.conn c).acceptedFd, true⟩
      kernel := Function.update s.kernel (s.conn c).mFd false
      connMap := Function.update s.connMap (-1) none } := by
    simp [Server.handleClose, Server.eventClose, Server.sysClose, Server.setConn, Server.onClose,
      Server.markClosed]
  rw [heq]
  exact hclose

theorem accept (h : Listing s) (hidle : s.accepting = none) (hpos : 0 ≤ fd)
    (hfree : s.kernel fd = false) : Listing (s.initConn fd) := by
  have hold : ∀ d < s.count, (s.initConn fd).conn d = s.conn d := by
    intro d hd
    exact Function.update_of_ne (Nat.ne_of_lt hd) ..
  have hnew : (s.initConn fd).conn s.count = ⟨fd, fd, false⟩ := Function.update_self ..
  have hlive : ∀ d n, Live (s.initConn fd) d n → (d = s.count ∧ n = fd) ∨ Live s d n := by
    rintro d n ⟨hd, hopen, hn⟩
    rcases (Nat.lt_succ_iff.mp hd).eq_or_lt with rfl | hlt
    · rw [hnew] at hn
      exact .inl ⟨rfl, hn.symm⟩
    · rw [hold d hlt] at hopen hn
      exact .inr ⟨hlt, hopen, hn⟩
  have hclash : ∀ d, ¬ Live s d fd := by
    intro d hd
    have hopen := (h.owns d fd hd).2
    rw [hfree] at hopen
    cases hopen
  have hkernel : ∀ n, n ≠ fd → (s.initConn fd).kernel n = s.kernel n :=
    fun n hn => Function.update_of_ne hn ..
  refine ⟨fun d hd => ?_, fun d n hd => ?_, fun n hn => ?_, fun d e n hd he => ?_,
    fun d n hd hacc => ?_, fun n d hd => ?_, fun d hd => ?_, fun d hd => ?_⟩
  · rcases (Nat.lt_succ_iff.mp hd).eq_or_lt with rfl | hlt
    · rw [hnew]
      exact hpos
    · rw [hold d hlt]
      exact h.numbers d hlt
  · rcases hlive d n hd with ⟨rfl, rfl⟩ | hbefore
    · rw [hnew]
      exact ⟨rfl, Function.update_self ..⟩
    · have hne : n ≠ fd := by
        rintro rfl
        exact hclash d hbefore
      rw [hold d hbefore.1, hkernel n hne]
      exact h.owns d n hbefore
  · by_cases hne : n = fd
    · subst hne
      exact ⟨s.count, Nat.lt_succ_self _, by rw [hnew], by rw [hnew]⟩
    · rw [hkernel n hne] at hn
      obtain ⟨d, hd⟩ := h.opened n hn
      exact ⟨d, Nat.lt_succ_of_lt hd.1, by rw [hold d hd.1]; exact hd.2.1,
        by rw [hold d hd.1]; exact hd.2.2⟩
  · rcases hlive d n hd with ⟨hdnew, hdn⟩ | hdold
    · rcases hlive e n he with ⟨henew, -⟩ | heold
      · rw [hdnew, henew]
      · exact absurd (hdn ▸ heold) (hclash e)
    · rcases hlive e n he with ⟨-, hen⟩ | heold
      · exact absurd (hen ▸ hdold) (hclash d)
      · exact h.unique d e n hdold heold
  · rcases hlive d n hd with ⟨rfl, rfl⟩ | hd
    · exact absurd rfl hacc
    · exact h.listed d n hd (by rw [hidle]; exact nofun)
  · obtain ⟨⟨hdlt, hdfd, -⟩, hmax⟩ := h.latest n d hd
    refine ⟨⟨Nat.lt_succ_of_lt hdlt, by rw [hold d hdlt]; exact hdfd, ?_⟩, fun e he hefd heacc => ?_⟩
    · intro heq
      exact absurd (Option.some.inj heq) (Nat.ne_of_gt hdlt)
    · have hlt : e < s.count := by
        refine (Nat.lt_succ_iff.mp he).lt_of_ne ?_
        rintro rfl
        exact heacc rfl
      rw [hold e hlt] at hefd
      exact hmax e hlt hefd (by rw [hidle]; exact nofun)
  · obtain rfl := Option.some.inj hd
    refine ⟨rfl, fun e he => ?_⟩
    rw [hnew] at he
    rcases hlive e fd he with ⟨rfl, -⟩ | he
    · rfl
    · exact absurd he (hclash e)
  · rcases List.mem_append.mp hd with hd | hd
    · exact Nat.lt_succ_of_lt (h.pending d hd)
    · obtain rfl := List.mem_singleton.mp hd
      exact Nat.lt_succ_self _

theorem insert (h : Listing s) (hacc : s.accepting = some c) : Listing (s.insert c) := by
  obtain ⟨hcount, hfresh⟩ := h.accepting c hacc
  refine ⟨h.numbers, h.owns, h.opened, h.unique, fun d n hd _ => ?_, fun n d hd => ?_,
    fun d hd => (by cases hd), h.pending⟩
  · by_cases hdc : d = c
    · subst hdc
      rw [← hd.2.2]
      exact Function.update_self ..
    · have hne : n ≠ (s.conn c).acceptedFd := by
        rintro rfl
        exact hdc (hfresh d hd)
      have hlisted := h.listed d n hd (by rw [hacc]; exact fun heq => hdc (Option.some.inj heq).symm)
      rw [← hlisted]
      exact Function.update_of_ne hne ..
  · by_cases hn : n = (s.conn c).acceptedFd
    · subst hn
      have hd : Function.update s.connMap (s.conn c).acceptedFd (some c) (s.conn c).acceptedFd
          = some d := hd
      rw [Function.update_self] at hd
      obtain rfl := Option.some.inj hd
      have hlast : c < s.count := by omega
      refine ⟨⟨hlast, rfl, nofun⟩, fun e he _ _ => ?_⟩
      have hlt : e < s.count := he
      omega
    · have hd : Function.update s.connMap (s.conn c).acceptedFd (some c) n = some d := hd
      rw [Function.update_of_ne hn] at hd
      obtain ⟨⟨hdlt, hdfd, -⟩, hmax⟩ := h.latest n d hd
      refine ⟨⟨hdlt, hdfd, nofun⟩, fun e he hefd _ => ?_⟩
      refine hmax e he hefd ?_
      rw [hacc]
      rintro heq
      obtain rfl := Option.some.inj heq
      exact hn hefd.symm

theorem step (h : Listing s) (hfit : ClosesFit s l) (hs : ConnectionTable.step s l = some s') :
    Listing s' := by
  cases l with
  | accept fd =>
    simp only [ConnectionTable.step] at hs
    split_ifs at hs with hguard
    cases hs
    exact h.accept hguard.1 hguard.2.1 hguard.2.2
  | connected c shut =>
    simp only [ConnectionTable.step] at hs
    split at hs
    case isFalse => cases hs
    case isTrue hmem =>
    have hrest : Listing { s with pending := s.pending.erase c } :=
      ⟨h.numbers, h.owns, h.opened, h.unique, h.listed, h.latest, h.accepting,
        fun d hd => h.pending d (List.mem_of_mem_erase hd)⟩
    cases shut with
    | false =>
      cases hs
      exact hrest
    | true =>
      cases hs
      exact hrest.shutdown (h.pending c hmem) (hfit rfl)
  | insert =>
    simp only [ConnectionTable.step] at hs
    split at hs
    · rename_i c hacc
      split_ifs at hs with hdone
      cases hs
      exact h.insert hacc
    · cases hs
  | handleClose c =>
    simp only [ConnectionTable.step] at hs
    split_ifs at hs with hlt
    cases hs
    exact h.handleClose hlt hfit
  | shutdown c =>
    simp only [ConnectionTable.step] at hs
    split_ifs at hs with hlt
    cases hs
    exact h.shutdown hlt hfit

end Listing

/-! ## How many entries there can be -/

variable {reserved : ℤ → Prop} [DecidablePred reserved] {N : ℕ} {s s' : Server} {l : Label}
  {ls : List Label}

/-- The number of every connection has been one of the `N` lowest. -/
def Low (reserved : ℤ → Prop) [DecidablePred reserved] (N : ℕ) (s : Server) : Prop :=
  ∀ c < s.count, ¬ reserved (s.conn c).acceptedFd ∧
    (below reserved ((s.conn c).acceptedFd + 1)).card ≤ N

/-- The numbers below the one that is handed out belong to live connections. -/
theorem card_below_le (h : Listing s) {fd : ℤ} (hlow : Lowest reserved s fd) :
    (below reserved fd).card ≤ s.live.card := by
  have hsub : below reserved fd ⊆ s.live.image fun c => (s.conn c).acceptedFd := by
    intro n hn
    obtain ⟨⟨hpos, hless⟩, hfree⟩ := mem_below.mp hn
    obtain ⟨c, hlt, hopen, hfd⟩ := h.opened n (hlow.2 n hpos hless hfree)
    refine Finset.mem_image.mpr ⟨c, ?_, hfd⟩
    exact Finset.mem_filter.mpr ⟨Finset.mem_range.mpr hlt, hopen⟩
  exact (Finset.card_le_card hsub).trans Finset.card_image_le

theorem shutdown_acceptedFd (s : Server) (c d : ℕ) :
    ((s.shutdown c).conn d).acceptedFd = (s.conn d).acceptedFd := by
  by_cases hd : d = c
  · subst hd
    simp [Server.shutdown, Server.markClosed, Server.setConn, Server.sysClose, Server.onClose]
  · simp [Server.shutdown, Server.markClosed, Server.setConn, Server.sysClose, Server.onClose, hd]

theorem handleClose_acceptedFd (s : Server) (c d : ℕ) :
    ((s.handleClose c).conn d).acceptedFd = (s.conn d).acceptedFd := by
  by_cases hd : d = c
  · subst hd
    simp [Server.handleClose, Server.markClosed, Server.setConn, Server.eventClose,
      Server.sysClose, Server.onClose]
  · simp [Server.handleClose, Server.markClosed, Server.setConn, Server.eventClose,
      Server.sysClose, Server.onClose, hd]

theorem Low.of_same (h : Low reserved N s) (hcount : s'.count = s.count)
    (hfd : ∀ d, (s'.conn d).acceptedFd = (s.conn d).acceptedFd) : Low reserved N s' := by
  intro d hd
  rw [hfd d]
  exact h d (hcount ▸ hd)

theorem Low.step (h : Low reserved N s) (hl : Listing s) (hfit : WithinLimit reserved N s l)
    (hs : ConnectionTable.step s l = some s') : Low reserved N s' := by
  cases l with
  | accept fd =>
    simp only [ConnectionTable.step] at hs
    split_ifs at hs with hguard
    cases hs
    intro d hd
    rcases (Nat.lt_succ_iff.mp hd).eq_or_lt with rfl | hlt
    · have hself : (s.initConn fd).conn s.count = ⟨fd, fd, false⟩ := Function.update_self ..
      have hbelow := card_below_le hl hfit.1
      have hsucc := card_below_succ reserved fd
      have hlimit := hfit.2
      rw [hself]
      refine ⟨hfit.1.1, ?_⟩
      dsimp only
      omega
    · have hold : (s.initConn fd).conn d = s.conn d := Function.update_of_ne (Nat.ne_of_lt hlt) ..
      rw [hold]
      exact h d hlt
  | connected c shut =>
    simp only [ConnectionTable.step] at hs
    split at hs
    case isFalse => cases hs
    case isTrue hmem =>
    cases hs
    cases shut with
    | false => exact h
    | true => exact h.of_same rfl fun d => shutdown_acceptedFd _ c d
  | insert =>
    simp only [ConnectionTable.step] at hs
    split at hs
    · split_ifs at hs with hdone
      cases hs
      exact h
    · cases hs
  | handleClose c =>
    simp only [ConnectionTable.step] at hs
    split_ifs at hs with hlt
    cases hs
    exact h.of_same rfl fun d => handleClose_acceptedFd s c d
  | shutdown c =>
    simp only [ConnectionTable.step] at hs
    split_ifs at hs with hlt
    cases hs
    exact h.of_same rfl fun d => shutdown_acceptedFd s c d

theorem card_entries_le (h : Listing s) (hlow : Low reserved N s) :
    ∃ keys : Finset ℤ, (∀ fd, fd ∈ keys ↔ (s.connMap fd).isSome) ∧ keys.card ≤ N := by
  refine ⟨((Finset.range s.count).image fun c => (s.conn c).acceptedFd).filter
    fun fd => (s.connMap fd).isSome, fun fd => ⟨fun hfd => (Finset.mem_filter.mp hfd).2, ?_⟩,
    card_le_of_low reserved fun fd hfd => ?_⟩
  · intro hsome
    obtain ⟨c, hc⟩ := Option.isSome_iff_exists.mp hsome
    obtain ⟨⟨hlt, hnumber, -⟩, -⟩ := h.latest fd c hc
    refine Finset.mem_filter.mpr ⟨Finset.mem_image.mpr ⟨c, ?_, hnumber⟩, hsome⟩
    exact Finset.mem_range.mpr hlt
  · obtain ⟨c, hc, rfl⟩ := Finset.mem_image.mp (Finset.mem_filter.mp hfd).1
    have hlt := Finset.mem_range.mp hc
    exact ⟨h.numbers c hlt, hlow c hlt⟩

/-- The live connections are listed, and a number that is not in use lists at most the connection
that had it last; so where the kernel hands out the lowest free number, there are never more
entries than there have been live connections at a time. -/
theorem entries_bounded (pool : Bool) (hr : run step (Server.new pool) ls = some s)
    (hg : Guarded step ClosesFit (Server.new pool) ls) :
    (∀ c fd, Live s c fd → s.accepting ≠ some c → s.connMap fd = some c) ∧
      (∀ fd c, s.connMap fd = some c → Latest s fd c) ∧
      ∀ (reserved : ℤ → Prop) [DecidablePred reserved] (N : ℕ),
        Guarded step (WithinLimit reserved N) (Server.new pool) ls →
        ∃ keys : Finset ℤ, (∀ fd, fd ∈ keys ↔ (s.connMap fd).isSome) ∧ keys.card ≤ N := by
  have hlisting : Listing s :=
    hg.invariant (fun _ _ _ ht hm hs => ht.step hm hs) (listing_new pool) hr
  refine ⟨hlisting.listed, hlisting.latest, fun reserved _ N hlimit => ?_⟩
  have hkeep : ∀ (t : Server) m t', Listing t ∧ Low reserved N t →
      ClosesFit t m ∧ WithinLimit reserved N t m → step t m = some t' →
      Listing t' ∧ Low reserved N t' :=
    fun _ _ _ ht hm hs => ⟨ht.1.step hm.1 hs, ht.2.step ht.1 hm.2 hs⟩
  have hstart : Listing (Server.new pool) ∧ Low reserved N (Server.new pool) :=
    ⟨listing_new pool, fun _ hc => absurd hc (Nat.not_lt_zero _)⟩
  exact card_entries_le hlisting ((hg.and hlimit).invariant hkeep hstart hr).2

instance (s : Server) (c : ℕ) : Decidable (ClosesOwn s c) :=
  inferInstanceAs (Decidable ((s.conn c).closed = false ∨
    (s.conn c).closed = true ∧ s.kernel (s.conn c).mFd = false))

instance (s : Server) (fd : ℤ) : Decidable (Lowest reserved s fd) :=
  have : Decidable (∀ n, 0 ≤ n → n < fd → ¬ reserved n → s.kernel n = true) :=
    Int.decidableLELT (fun n => ¬ reserved n → s.kernel n = true) 0 fd
  inferInstanceAs (Decidable (¬ reserved fd ∧ _))

instance (s : Server) (l : Label) : Decidable (ClosesFit s l) :=
  match l with
  | .connected c shut => inferInstanceAs (Decidable (shut = true → ClosesOwn s c))
  | .handleClose c => inferInstanceAs (Decidable (ClosesOwn s c))
  | .shutdown c => inferInstanceAs (Decidable (ClosesOwn s c))
  | .accept _ => isTrue trivial
  | .insert => isTrue trivial

instance (s : Server) (l : Label) : Decidable (WithinLimit reserved N s l) :=
  match l with
  | .accept fd => inferInstanceAs (Decidable (Lowest reserved s fd ∧ s.live.card < N))
  | .insert => isTrue trivial
  | .connected _ _ => isTrue trivial
  | .handleClose _ => isTrue trivial
  | .shutdown _ => isTrue trivial

/-- Two connections at a time: the third one takes the place of the first one, which has been
closed by its peer. -/
theorem entries_bounded_two : ∃ s, run step (Server.new true)
    [.accept 5, .insert, .accept 6, .insert, .handleClose 0, .accept 5, .insert, .handleClose 1] =
      some s ∧ s.connMap 5 = some 2 ∧ s.connMap 6 = some 1 ∧
    ∃ keys : Finset ℤ, (∀ fd, fd ∈ keys ↔ (s.connMap fd).isSome) ∧ keys.card ≤ 2 := by
  obtain ⟨s, hs⟩ : ∃ s, run step (Server.new true)
      [.accept 5, .insert, .accept 6, .insert, .handleClose 0, .accept 5, .insert,
        .handleClose 1] = some s := ⟨_, rfl⟩
  have hlisted : s.connMap 5 = some 2 ∧ s.connMap 6 = some 1 := by
    cases hs
    decide
  have hbounded := entries_bounded true hs (by decide)
  exact ⟨s, hs, hlisted.1, hlisted.2, hbounded.2.2 (fun n => n < 5) 2 (by decide)⟩

end GenericServer.ConnectionTable
