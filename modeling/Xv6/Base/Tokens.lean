-- SUMMARY: Reference counts as multisets of tokens: a token is one counted reference and the processes that share it.
import Mathlib.Data.Finset.Erase
import Mathlib.Data.Finset.Insert
import Mathlib.Data.Multiset.Count

/-!
# Tokens

An object that is kept alive by a counter has one token for each reference that is counted.
Several processes may use an object through the same token, and a token may stand for a
reference that no process uses. A process gives a token back only if it is the last user.
-/

structure Token (ι π : Type) where
  slot : ι
  users : Finset π
  deriving DecidableEq

namespace Token

variable {ι π : Type} [DecidableEq ι] [DecidableEq π] {ts : Multiset (Token ι π)} {t t' : Token ι π}
  {i : ι} {p q : π}

/-- The number of references to `i`. -/
def refs (ts : Multiset (Token ι π)) (i : ι) : Nat := ts.countP fun t => t.slot = i

/-- The number of references to `i` that `p` can use. -/
def uses (ts : Multiset (Token ι π)) (p : π) (i : ι) : Nat :=
  ts.countP fun t => t.slot = i ∧ p ∈ t.users

/-- The token that `p` alone uses. -/
@[reducible]
def own (p : π) (i : ι) : Token ι π := ⟨i, {p}⟩

theorem uses_le_refs : uses ts p i ≤ refs ts i := by
  unfold uses refs
  rw [Multiset.countP_eq_card_filter, Multiset.countP_eq_card_filter]
  exact Multiset.card_le_card (Multiset.monotone_filter_right _ fun _ h => h.1)

omit [DecidableEq π] in
theorem refs_cons : refs (t ::ₘ ts) i = refs ts i + if t.slot = i then 1 else 0 :=
  Multiset.countP_cons _ _ _

theorem uses_cons : uses (t ::ₘ ts) p i = uses ts p i + if t.slot = i ∧ p ∈ t.users then 1 else 0 :=
  Multiset.countP_cons _ _ _

theorem refs_erase (h : t ∈ ts) : refs (ts.erase t) i + (if t.slot = i then 1 else 0) = refs ts i := by
  rw [← refs_cons, Multiset.cons_erase h]

theorem uses_erase (h : t ∈ ts) :
    uses (ts.erase t) p i + (if t.slot = i ∧ p ∈ t.users then 1 else 0) = uses ts p i := by
  rw [← uses_cons, Multiset.cons_erase h]

theorem uses_pos (h : t ∈ ts) (hp : p ∈ t.users) : 0 < uses ts p t.slot :=
  Multiset.countP_pos.mpr ⟨t, h, rfl, hp⟩

/-- Somebody else needs a token of their own. -/
theorem two_le_refs (h : own p i ∈ ts) (hq : 0 < uses ts q i) (hne : q ≠ p) : 2 ≤ refs ts i := by
  have hrefs := refs_erase (i := i) h
  have huses := uses_erase (p := q) (i := i) h
  rw [if_pos rfl] at hrefs
  rw [if_neg fun hmem => hne (Finset.mem_singleton.mp hmem.2)] at huses
  have hle : uses (ts.erase (own p i)) q i ≤ refs (ts.erase (own p i)) i := uses_le_refs
  omega

/-! ## A token with other users -/

/-- `t` gets other users. -/
def change (ts : Multiset (Token ι π)) (t t' : Token ι π) : Multiset (Token ι π) :=
  t' ::ₘ ts.erase t

theorem refs_change (t' : Token ι π) (h : t ∈ ts) (hslot : t'.slot = t.slot) : refs (change ts t t') i = refs ts i := by
  rw [change, refs_cons, hslot, refs_erase h]

theorem uses_change (t' : Token ι π) (h : t ∈ ts) :
    uses (change ts t t') q i + (if t.slot = i ∧ q ∈ t.users then 1 else 0) =
      uses ts q i + if t'.slot = i ∧ q ∈ t'.users then 1 else 0 := by
  rw [change, uses_cons, ← uses_erase h]
  omega

/-- Whoever may use the new token as well loses nothing. -/
theorem uses_le_change (h : t ∈ ts) (hslot : t'.slot = t.slot) (hq : q ∈ t.users → q ∈ t'.users) :
    uses ts q i ≤ uses (change ts t t') q i := by
  have huses := uses_change (q := q) (i := i) t' h
  split at huses
  · next hold =>
    rw [if_pos ⟨hslot.trans hold.1, hq hold.2⟩] at huses
    omega
  · omega

theorem mem_change (h : t' ∈ ts) (hne : t' ≠ t) (t'' : Token ι π) : t' ∈ change ts t t'' :=
  Multiset.mem_cons_of_mem ((Multiset.mem_erase_of_ne hne).mpr h)

omit [DecidableEq ι] [DecidableEq π] in
theorem own_ne (hp : p ∈ t.users) (hne : q ≠ p) : own q i ≠ t := by
  rintro rfl
  exact hne (Finset.mem_singleton.mp hp).symm

end Token
