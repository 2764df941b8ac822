-- SUMMARY: The regular expression matcher of grep, and the language its patterns stand for.
import Mathlib.Computability.Language

/-!
# The matcher of `grep`

`user/grep.c` interprets a pattern while it walks over the text: `matchhere` looks ahead for a
`*`, `matchstar` tries every number of repetitions, and `match` every place to start. The
meaning of a pattern does not speak of the text at all: the pattern is cut into pieces, and
its language is the product of the languages of the pieces.

A string is the list of its bytes; reading at its end gives NUL.
-/

namespace Xv6.Grep

open scoped Computability

def caret : UInt8 := 94
def dollar : UInt8 := 36
def dot : UInt8 := 46
def asterisk : UInt8 := 42

/-! ## The functions -/

/-- The loop of `matchstar`; `here` is `matchhere` with the rest of the pattern. -/
def starLoop (here : List UInt8 → Bool) (c : UInt8) : List UInt8 → Bool
  | [] => here []
  | x :: text =>
    if here (x :: text) then true
    else if x ≠ 0 ∧ (x = c ∨ c = dot) then starLoop here c text
    else false

/-- The last two lines of `matchhere`; `here` is `matchhere` with the rest of the pattern. -/
def charHere (here : List UInt8 → Bool) (c : UInt8) : List UInt8 → Bool
  | [] => false
  | x :: text => if x ≠ 0 ∧ (c = dot ∨ c = x) then here text else false

/-- `matchhere`: search for `re` at the beginning of the text. -/
def matchhere : List UInt8 → List UInt8 → Bool
  | [], _ => true
  | [c], text =>
    -- `re[1]` is NUL
    if c = 0 then true
    else if c = dollar then text.headD 0 = 0
    else charHere (fun _ => true) c text
  | c :: d :: re, text =>
    if c = 0 then true
    else if d = asterisk then starLoop (matchhere re) c text
    else if c = dollar ∧ d = 0 then text.headD 0 = 0
    else charHere (matchhere (d :: re)) c text

/-- `matchstar`: search for `c*re` at the beginning of the text. -/
def matchstar (c : UInt8) (re text : List UInt8) : Bool := starLoop (matchhere re) c text

/-- The loop of `match`. -/
def matchLoop (re : List UInt8) : List UInt8 → Bool
  | [] => matchhere re []
  | x :: text => if matchhere re (x :: text) then true else if x ≠ 0 then matchLoop re text else false

/-- `match`. -/
def matchText (re text : List UInt8) : Bool :=
  if re.headD 0 = caret then matchhere (re.drop 1) text else matchLoop re text

/-- `matchhere` as it is written, with the bytes of the two strings looked up. -/
theorem matchhere_eq (re text : List UInt8) :
    matchhere re text =
      if re.headD 0 = 0 then true
      else if re.getD 1 0 = asterisk then matchstar (re.headD 0) (re.drop 2) text
      else if re.headD 0 = dollar ∧ re.getD 1 0 = 0 then decide (text.headD 0 = 0)
      else if text.headD 0 ≠ 0 ∧ (re.headD 0 = dot ∨ re.headD 0 = text.headD 0)
        then matchhere (re.drop 1) (text.drop 1)
      else false := by
  rcases re with _ | ⟨c, _ | ⟨d, re⟩⟩
  · rfl
  · cases text <;> simp [matchhere, charHere, asterisk]
  · cases text <;> simp [matchhere, charHere, matchstar]

/-! ## The language of a pattern -/

/-- A piece of a pattern: a character, or a character with a `*` behind it. -/
inductive Piece
  | one (c : UInt8)
  | star (c : UInt8)
deriving DecidableEq

/-- The pieces of a pattern. A `*` that does not follow a character stands for itself. -/
def pieces : List UInt8 → List Piece
  | [] => []
  | [c] => [.one c]
  | c :: d :: re => if d = asterisk then .star c :: pieces re else .one c :: pieces (d :: re)

/-- What `match` looks for, and at which end of the text it has to be. -/
structure Pattern where
  atStart : Bool
  body : List Piece
  atEnd : Bool

/-- A `$` in front of the end, without a `*`, is not a part of the body. -/
def bounded (atStart : Bool) (ps : List Piece) : Pattern :=
  if ps.getLast? = some (.one dollar) then ⟨atStart, ps.dropLast, true⟩ else ⟨atStart, ps, false⟩

def parse (re : List UInt8) : Pattern :=
  if re.head? = some caret then bounded true (pieces re.tail) else bounded false (pieces re)

/-- The texts of one character that `c` stands for. -/
def single (c : UInt8) : Language UInt8 := {w | ∃ x, w = [x] ∧ (c = dot ∨ c = x)}

def Piece.language : Piece → Language UInt8
  | .one c => single c
  | .star c => (single c)∗

def language (ps : List Piece) : Language UInt8 := (ps.map Piece.language).prod

/-- A part of the text is in the language, and it is where it has to be. -/
def Pattern.Occurs (p : Pattern) (text : List UInt8) : Prop :=
  ∃ before sub after, text = before ++ sub ++ after ∧ sub ∈ language p.body ∧
    (p.atStart = true → before = []) ∧ (p.atEnd = true → after = [])

theorem nil_mem_language {w : List UInt8} : w ∈ language [] ↔ w = [] := Language.mem_one w

theorem cons_mem_language {p : Piece} {ps : List Piece} {w : List UInt8} :
    w ∈ language (p :: ps) ↔ ∃ a b, w = a ++ b ∧ a ∈ p.language ∧ b ∈ language ps := by
  rw [language, List.map_cons, List.prod_cons, Language.mem_mul]
  constructor
  · rintro ⟨a, ha, b, hb, rfl⟩
    exact ⟨a, b, rfl, ha, hb⟩
  · rintro ⟨a, b, rfl, ha, hb⟩
    exact ⟨a, ha, b, hb, rfl⟩

/-- The repetitions of a character are the texts of such characters. -/
theorem mem_kstar_single {c : UInt8} {w : List UInt8} :
    w ∈ (single c)∗ ↔ ∀ x ∈ w, c = dot ∨ c = x := by
  rw [Language.mem_kstar]
  constructor
  · rintro ⟨parts, rfl, hparts⟩ x hx
    obtain ⟨part, hpart, hx⟩ := List.mem_flatten.mp hx
    obtain ⟨y, rfl, hy⟩ := hparts part hpart
    rw [List.mem_singleton.mp hx]
    exact hy
  · intro h
    refine ⟨w.map fun x => [x], (List.flatMap_singleton' w).symm, fun part hpart => ?_⟩
    obtain ⟨x, hx, rfl⟩ := List.mem_map.mp hpart
    exact ⟨x, rfl, h x hx⟩

/-! ## The matcher decides the language -/

variable {c d : UInt8} {re text : List UInt8} {ps : List Piece} {b : Bool}

/-- `matchstar` tries every number of repetitions. -/
theorem starLoop_iff {here : List UInt8 → Bool} (htext : 0 ∉ text) :
    starLoop here c text = true ↔ ∃ u v, text = u ++ v ∧ u ∈ (single c)∗ ∧ here v = true := by
  simp only [mem_kstar_single]
  induction text with
  | nil =>
    constructor
    · intro h
      exact ⟨[], [], rfl, fun x hx => absurd hx List.not_mem_nil, h⟩
    · rintro ⟨u, v, huv, -, hv⟩
      obtain ⟨rfl, rfl⟩ := List.append_eq_nil_iff.mp huv.symm
      exact hv
  | cons x text ih =>
    rw [List.mem_cons, not_or] at htext
    rw [starLoop]
    split
    · next hhere => exact iff_of_true rfl ⟨[], x :: text, rfl, fun x hx => absurd hx List.not_mem_nil, hhere⟩
    · next hhere =>
      have hmore : (∃ u v, x :: text = u ++ v ∧ (∀ y ∈ u, c = dot ∨ c = y) ∧ here v = true) ↔
          (c = dot ∨ c = x) ∧ ∃ u v, text = u ++ v ∧ (∀ y ∈ u, c = dot ∨ c = y) ∧ here v = true := by
        constructor
        · rintro ⟨u, v, huv, hu, hv⟩
          cases u with
          | nil => exact absurd (huv ▸ hv) hhere
          | cons y u =>
            obtain ⟨rfl, rfl⟩ := List.cons.inj huv
            exact ⟨hu x List.mem_cons_self, u, v, rfl, fun z hz => hu z (List.mem_cons_of_mem x hz), hv⟩
        · rintro ⟨hx, u, v, rfl, hu, hv⟩
          refine ⟨x :: u, v, rfl, fun y hy => ?_, hv⟩
          rcases List.mem_cons.mp hy with rfl | hy
          · exact hx
          · exact hu y hy
      rw [hmore, ← ih htext.2]
      have hcond : (x ≠ 0 ∧ (x = c ∨ c = dot)) ↔ c = dot ∨ c = x := by
        rw [and_iff_right (Ne.symm htext.1), or_comm, eq_comm (a := x)]
      simp [hcond]

/-- The body occurs at the beginning of the text, and it is the whole text if it has to end there. -/
def Prefixed (p : Pattern) (text : List UInt8) : Prop :=
  ∃ sub after, text = sub ++ after ∧ sub ∈ language p.body ∧ (p.atEnd = true → after = [])

theorem prefixed_nil : Prefixed (bounded b []) text :=
  ⟨[], text, rfl, nil_mem_language.mpr rfl, fun h => absurd h Bool.false_ne_true⟩

theorem prefixed_dollar : Prefixed (bounded b [.one dollar]) text ↔ text = [] := by
  constructor
  · rintro ⟨sub, after, rfl, hsub, hafter⟩
    rw [nil_mem_language.mp hsub, hafter rfl]
    rfl
  · rintro rfl
    exact ⟨[], [], rfl, nil_mem_language.mpr rfl, fun _ => rfl⟩

/-- A piece that is not the `$` at the end is searched first. -/
theorem prefixed_cons {p : Piece} (h : p = .one dollar → ps ≠ []) :
    Prefixed (bounded b (p :: ps)) text ↔
      ∃ u v, text = u ++ v ∧ u ∈ p.language ∧ Prefixed (bounded b ps) v := by
  have hbody : (bounded b (p :: ps)).body = p :: (bounded b ps).body ∧
      (bounded b (p :: ps)).atEnd = (bounded b ps).atEnd := by
    cases ps with
    | nil =>
      have hp : p ≠ .one dollar := fun hp => h hp rfl
      simp [bounded, hp]
    | cons q qs =>
      rw [bounded, bounded, List.getLast?_cons_cons]
      split <;> exact ⟨rfl, rfl⟩
  rw [Prefixed, hbody.1, hbody.2]
  constructor
  · rintro ⟨sub, after, rfl, hsub, hafter⟩
    obtain ⟨u, v, rfl, hu, hv⟩ := cons_mem_language.mp hsub
    exact ⟨u, v ++ after, List.append_assoc .., hu, v, after, rfl, hv, hafter⟩
  · rintro ⟨u, v, rfl, hu, sub, after, rfl, hsub, hafter⟩
    exact ⟨u ++ sub, after, (List.append_assoc ..).symm, cons_mem_language.mpr ⟨u, sub, rfl, hu, hsub⟩, hafter⟩

/-- A character is searched by looking at the first one of the text. -/
theorem prefixed_one (h : c = dollar → ps ≠ []) :
    Prefixed (bounded b (.one c :: ps)) text ↔
      ∃ x rest, text = x :: rest ∧ (c = dot ∨ c = x) ∧ Prefixed (bounded b ps) rest := by
  rw [prefixed_cons (fun hc => h (Piece.one.inj hc))]
  constructor
  · rintro ⟨_, v, rfl, ⟨x, rfl, hx⟩, hv⟩
    exact ⟨x, v, rfl, hx, hv⟩
  · rintro ⟨x, rest, rfl, hx, hv⟩
    exact ⟨[x], rest, rfl, ⟨x, rfl, hx⟩, hv⟩

theorem pieces_ne_nil (c : UInt8) (re : List UInt8) : pieces (c :: re) ≠ [] := by
  cases re with
  | nil => exact List.cons_ne_nil _ _
  | cons d re =>
    rw [pieces]
    split <;> exact List.cons_ne_nil _ _

theorem charHere_iff {here : List UInt8 → Bool} (hhere : ∀ rest, 0 ∉ rest →
    (here rest = true ↔ Prefixed (bounded b ps) rest)) (h : c = dollar → ps ≠ []) (htext : 0 ∉ text) :
    charHere here c text = true ↔ Prefixed (bounded b (.one c :: ps)) text := by
  rw [prefixed_one h]
  cases text with
  | nil => simp [charHere]
  | cons x rest =>
    rw [List.mem_cons, not_or] at htext
    simp [charHere, Ne.symm htext.1, hhere rest htext.2]

theorem matchhere_iff (hre : 0 ∉ re) (htext : 0 ∉ text) :
    matchhere re text = true ↔ Prefixed (bounded b (pieces re)) text := by
  -- the pattern is cut in the same way by `matchhere` and `pieces`
  induction re using pieces.induct generalizing text with
  | case1 => exact iff_of_true (by rw [matchhere]) prefixed_nil
  | case2 c =>
    rw [List.mem_singleton] at hre
    rw [matchhere, if_neg (Ne.symm hre), pieces]
    split
    · next hc =>
      rw [hc, prefixed_dollar]
      cases text with
      | nil => simp
      | cons x rest =>
        rw [List.mem_cons, not_or] at htext
        simp [Ne.symm htext.1]
    · next hc =>
      exact charHere_iff (fun _ _ => iff_of_true rfl prefixed_nil) (fun h => absurd h hc) htext
  | case3 c re ih =>
    simp only [List.mem_cons, not_or] at hre
    rw [matchhere, if_neg (Ne.symm hre.1), if_pos rfl, pieces, if_pos rfl, starLoop_iff htext,
      prefixed_cons (fun h => by cases h)]
    refine exists_congr fun u => exists_congr fun v => and_congr_right fun huv => and_congr_right fun _ => ?_
    exact ih hre.2.2 fun hv => htext (huv ▸ List.mem_append_right u hv)
  | case4 c d re hd ih =>
    have hrest : 0 ∉ d :: re := fun h => hre (List.mem_cons_of_mem c h)
    simp only [List.mem_cons, not_or] at hre
    rw [matchhere, if_neg (Ne.symm hre.1), if_neg hd, if_neg (fun h => hre.2.1 h.2.symm), pieces,
      if_neg hd]
    exact charHere_iff (fun rest h => ih hrest h) (fun _ => pieces_ne_nil d re) htext

/-- `match` tries every place to start. -/
theorem matchLoop_iff (htext : 0 ∉ text) :
    matchLoop re text = true ↔ ∃ before rest, text = before ++ rest ∧ matchhere re rest = true := by
  induction text with
  | nil =>
    constructor
    · intro h
      exact ⟨[], [], rfl, h⟩
    · rintro ⟨u, v, huv, hv⟩
      obtain ⟨rfl, rfl⟩ := List.append_eq_nil_iff.mp huv.symm
      exact hv
  | cons x text ih =>
    rw [List.mem_cons, not_or] at htext
    rw [matchLoop]
    split
    · next hhere => exact iff_of_true rfl ⟨[], x :: text, rfl, hhere⟩
    · next hhere =>
      rw [if_pos (Ne.symm htext.1), ih htext.2]
      constructor
      · rintro ⟨u, v, rfl, hv⟩
        exact ⟨x :: u, v, rfl, hv⟩
      · rintro ⟨u, v, huv, hv⟩
        cases u with
        | nil => exact absurd (huv ▸ hv) hhere
        | cons y u => exact ⟨u, v, (List.cons.inj huv).2, hv⟩

theorem bounded_atStart : (bounded b ps).atStart = b := by
  rw [bounded]
  split <;> rfl

theorem parse_caret (re : List UInt8) : parse (caret :: re) = bounded true (pieces re) := if_pos rfl

theorem parse_of_ne (h : re.headD 0 ≠ caret) : parse re = bounded false (pieces re) := by
  refine if_neg fun hhead => h ?_
  cases re with
  | nil => cases hhead
  | cons c re => exact Option.some.inj hhead

theorem occurs_of_atStart : (bounded true ps).Occurs text ↔ Prefixed (bounded true ps) text := by
  constructor
  · rintro ⟨before, sub, after, rfl, hsub, hstart, hend⟩
    rw [hstart bounded_atStart]
    exact ⟨sub, after, rfl, hsub, hend⟩
  · rintro ⟨sub, after, rfl, hsub, hend⟩
    exact ⟨[], sub, after, rfl, hsub, fun _ => rfl, hend⟩

theorem occurs_anywhere : (bounded false ps).Occurs text ↔
    ∃ before rest, text = before ++ rest ∧ Prefixed (bounded false ps) rest := by
  constructor
  · rintro ⟨before, sub, after, rfl, hsub, -, hend⟩
    exact ⟨before, sub ++ after, List.append_assoc .., sub, after, rfl, hsub, hend⟩
  · rintro ⟨before, rest, rfl, sub, after, rfl, hsub, hend⟩
    refine ⟨before, sub, after, (List.append_assoc ..).symm, hsub, fun h => ?_, hend⟩
    exact absurd (bounded_atStart.symm.trans h) Bool.false_ne_true

/-- `match` returns 1 just for the texts in which the pattern occurs. -/
theorem match_iff_occurs (hre : 0 ∉ re) (htext : 0 ∉ text) :
    matchText re text = true ↔ (parse re).Occurs text := by
  rw [matchText]
  split
  · next hcaret =>
    cases re with
    | nil => exact absurd hcaret (by decide)
    | cons c re =>
      obtain rfl : c = caret := hcaret
      rw [parse_caret, occurs_of_atStart]
      exact matchhere_iff (fun h => hre (List.mem_cons_of_mem _ h)) htext
  · next hcaret =>
    rw [parse_of_ne hcaret, occurs_anywhere, matchLoop_iff htext]
    refine exists_congr fun before => exists_congr fun rest => and_congr_right fun hsplit => ?_
    exact matchhere_iff hre fun hrest => htext (hsplit ▸ List.mem_append_right before hrest)

/-- The pattern `**$` and the text `a**`. -/
theorem match_iff_occurs_stars : (parse [42, 42, 36]).Occurs [97, 42, 42] :=
  (match_iff_occurs (by decide) (by decide)).mp (by decide)

end Xv6.Grep
