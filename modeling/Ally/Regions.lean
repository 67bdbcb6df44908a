import Mathlib.Data.List.Infix
import Mathlib.Tactic

/-!
# Matches in a list, and its tagged regions

A match is what a pattern takes off the front of a list. Tags are matched up to a function on the
symbols, such as folding the case of characters. A region goes from an opening tag to the next
closing tag.
-/

namespace Regions

variable {α β : Type*}

/-! ### Matches -/

/-- What follows a match at the front of a list. A match is never empty. -/
structure Matcher (α : Type*) where
  rest : List α → Option (List α)
  shorter : ∀ {s r : List α}, rest s = some r → r.length < s.length

namespace Matcher

variable (m : Matcher α)

/-- What follows the first match: `re.search`. -/
def first : List α → Option (List α)
  | [] => none
  | c :: s => (m.rest (c :: s)).or (first s)

/-- The list without its matches: `re.sub` by nothing. -/
def erase : List α → List α
  | [] => []
  | c :: s =>
      match h : m.rest (c :: s) with
      | some r =>
          have : r.length ≤ s.length := Nat.le_of_lt_succ (m.shorter h)
          erase r
      | none => c :: erase s
termination_by s => s.length

variable {m}

theorem length_first {s r : List α} (h : m.first s = some r) : r.length < s.length := by
  induction s with
  | nil => cases h
  | cons c s ih =>
      rw [first, Option.or_eq_some_iff] at h
      rcases h with h | ⟨-, h⟩
      · exact m.shorter h
      · exact (ih h).trans (Nat.lt_succ_self _)

theorem erase_cons (c : α) (s : List α) :
    m.erase (c :: s) =
      match m.rest (c :: s) with
      | some r => m.erase r
      | none => c :: m.erase s := by
  rw [erase]
  split <;> rename_i h <;> simp only [h]

theorem rest_of_first_none {c : α} {s : List α} (h : m.first (c :: s) = none) :
    m.rest (c :: s) = none ∧ m.first s = none := by
  rwa [first, Option.or_eq_none_iff] at h

theorem erase_eq_self {s : List α} (h : m.first s = none) : m.erase s = s := by
  induction s with
  | nil => rw [erase]
  | cons c s ih =>
      obtain ⟨hrest, hfirst⟩ := rest_of_first_none h
      rw [erase_cons, hrest]
      exact congrArg (c :: ·) (ih hfirst)

end Matcher

/-! ### Tags -/

structure Tag (β : Type*) where
  head : β
  tail : List β
  deriving DecidableEq

def Tag.symbols (t : Tag β) : List β := t.head :: t.tail

/-- The list is a tag as it may be written. -/
def Tag.Spells (fold : α → β) (t : Tag β) (s : List α) : Prop := s.map fold = t.symbols

instance [DecidableEq β] (fold : α → β) (t : Tag β) (s : List α) : Decidable (t.Spells fold s) :=
  inferInstanceAs (Decidable (s.map fold = t.symbols))

section Cut

variable [DecidableEq β] (fold : α → β)

/-- What follows a tag at the front. -/
def after (t : Tag β) (s : List α) : Option (List α) :=
  if t.symbols <+: s.map fold then some (s.drop t.symbols.length) else none

def tag (t : Tag β) : Matcher α where
  rest := after fold t
  shorter := by
    intro s r h
    unfold after at h
    split_ifs at h with hpre
    obtain rfl := Option.some.inj h
    have hlength := hpre.length_le
    rw [List.length_map, Tag.symbols, List.length_cons] at hlength
    rw [List.length_drop, Tag.symbols, List.length_cons]
    omega

/-- What follows the first occurrence of a tag. -/
def cut (t : Tag β) : List α → Option (List α) := (tag fold t).first

/-- From an opening tag to the next closing one: `opening.*?closing`. -/
def region (opening closing : Tag β) : Matcher α where
  rest s := (after fold opening s).bind (cut fold closing)
  shorter := by
    intro s r h
    obtain ⟨q, hq, hr⟩ := Option.bind_eq_some_iff.mp h
    exact (Matcher.length_first hr).trans ((tag fold opening).shorter hq)

def either (opening closing : Tag β) : Matcher α where
  rest s := (after fold opening s).or (after fold closing s)
  shorter := by
    intro s r h
    rcases Option.or_eq_some_iff.mp h with h | ⟨-, h⟩
    · exact (tag fold opening).shorter h
    · exact (tag fold closing).shorter h

/-- The list without its regions. -/
def remove (opening closing : Tag β) : List α → List α := (region fold opening closing).erase

/-- The list without the tags that are left. -/
def erase (opening closing : Tag β) : List α → List α := (either fold opening closing).erase

/-- What follows the last tag: `re.split` at the tag, the last part. -/
def lastPart (t : Tag β) (s : List α) : List α :=
  match h : cut fold t s with
  | some r =>
      have := Matcher.length_first h
      lastPart t r
  | none => s
termination_by s.length

variable {fold}

theorem cut_cons (t : Tag β) (c : α) (s : List α) :
    cut fold t (c :: s) = (after fold t (c :: s)).or (cut fold t s) := rfl

theorem remove_cons (opening closing : Tag β) (c : α) (s : List α) :
    remove fold opening closing (c :: s) =
      match (after fold opening (c :: s)).bind (cut fold closing) with
      | some r => remove fold opening closing r
      | none => c :: remove fold opening closing s :=
  Matcher.erase_cons c s

/-! ### Tags at the front -/

variable {t opening closing : Tag β} {s r : List α}

theorem after_spelled (h : t.Spells fold s) (r : List α) : after fold t (s ++ r) = some r := by
  have hlength : t.symbols.length = s.length := by rw [← h, List.length_map]
  rw [after, if_pos, hlength, List.drop_left]
  rw [List.map_append, h]
  exact List.prefix_append _ _

theorem after_of_head_ne {c : α} (h : fold c ≠ t.head) : after fold t (c :: s) = none := by
  rw [after, if_neg]
  rintro ⟨u, hu⟩
  injection hu with hhead htail
  exact h hhead.symm

/-- A tag does not go on past a symbol that only its head can be. -/
theorem after_append {x : α} (hs : s ≠ []) (hx : fold x ∉ t.tail) :
    after fold t (s ++ x :: r) = (after fold t s).map (· ++ x :: r) := by
  have hiff : t.symbols <+: (s ++ x :: r).map fold ↔ t.symbols <+: s.map fold := by
    rw [List.map_append, List.map_cons]
    constructor
    · intro h
      rcases List.prefix_or_prefix_of_prefix h (List.prefix_append _ _) with h' | ⟨u, hu⟩
      · exact h'
      · cases u with
        | nil => rw [← hu, List.append_nil]
        | cons y u =>
            -- the tag reaches the symbol
            rw [← hu, List.prefix_append_right_inj, List.cons_prefix_cons] at h
            obtain ⟨c, s, rfl⟩ := List.exists_cons_of_ne_nil hs
            rw [Tag.symbols, List.map_cons, List.cons_append] at hu
            injection hu with hhead htail
            rw [← htail, ← h.1] at hx
            exact absurd (List.mem_append_right _ List.mem_cons_self) hx
    · exact fun h => h.trans (List.prefix_append _ _)
  by_cases h : t.symbols <+: s.map fold
  · have hlength : t.symbols.length ≤ s.length := by
      simpa using h.length_le
    rw [after, after, if_pos (hiff.mpr h), if_pos h, List.drop_append_of_le_length hlength]
    rfl
  · rw [after, after, if_neg fun h' => h (hiff.mp h'), if_neg h]
    rfl

theorem cut_append {x : α} (hx : fold x ∉ t.tail) :
    cut fold t (s ++ x :: r) = ((cut fold t s).map (· ++ x :: r)).or (cut fold t (x :: r)) := by
  induction s with
  | nil => rfl
  | cons c s ih =>
      rw [List.cons_append, cut_cons, ← List.cons_append, after_append (List.cons_ne_nil c s) hx, ih,
        cut_cons t c s]
      cases after fold t (c :: s) <;> rfl

theorem cut_skip (hs : ∀ c ∈ s, fold c ≠ t.head) : cut fold t (s ++ r) = cut fold t r := by
  induction s with
  | nil => rfl
  | cons c s ih =>
      rw [List.cons_append, cut_cons, after_of_head_ne (hs c List.mem_cons_self), Option.none_or]
      exact ih fun d hd => hs d (List.mem_cons_of_mem c hd)

end Cut

/-! ### Regions -/

/-- Both tags start with one symbol, which neither has a second time, and neither starts the
other. -/
structure Paired (opening closing : Tag β) : Prop where
  head : closing.head = opening.head
  openingOnce : opening.head ∉ opening.tail
  closingOnce : closing.head ∉ closing.tail
  opens : ¬ opening.symbols <+: closing.symbols
  closes : ¬ closing.symbols <+: opening.symbols

section Paired

variable [DecidableEq β] {fold : α → β} {opening closing : Tag β} {o b c r p : List α}

omit [DecidableEq β] in
theorem Tag.Spells.exists_cons {t : Tag β} (h : t.Spells fold o) :
    ∃ x o', o = x :: o' ∧ fold x = t.head ∧ o'.map fold = t.tail := by
  cases o with
  | nil => cases h
  | cons x o =>
      injection h with hx ho
      exact ⟨x, o, rfl, hx, ho⟩

/-- The body of a region ends at its closing tag. -/
theorem Paired.cut_body (h : Paired opening closing) (hb : cut fold closing b = none)
    (hc : closing.Spells fold c) : cut fold closing (b ++ (c ++ r)) = some r := by
  have hspelled : after fold closing (c ++ r) = some r := after_spelled hc r
  obtain ⟨y, c, rfl, hy, -⟩ := hc.exists_cons
  have htail : fold y ∉ closing.tail := hy ▸ h.closingOnce
  rw [List.cons_append, cut_append htail, hb, Option.map_none, Option.none_or,
    cut_cons, ← List.cons_append, hspelled, Option.some_or]

/-- No closing tag starts within an opening one. -/
theorem Paired.cut_opening (h : Paired opening closing) (ho : opening.Spells fold o) :
    cut fold closing (o ++ r) = cut fold closing r := by
  have hopen : after fold closing (o ++ r) = none := by
    rw [after, if_neg]
    intro hclosing
    have hopening : opening.symbols <+: (o ++ r).map fold := by
      rw [List.map_append, ho]
      exact List.prefix_append _ _
    rcases List.prefix_or_prefix_of_prefix hopening hclosing with hpre | hpre
    · exact h.opens hpre
    · exact h.closes hpre
  obtain ⟨x, o, rfl, -, htail⟩ := ho.exists_cons
  have hskip : ∀ d ∈ o, fold d ≠ closing.head := by
    intro d hd he
    apply h.openingOnce
    rw [← h.head, ← he, ← htail]
    exact List.mem_map_of_mem hd
  rw [List.cons_append, cut_cons, ← List.cons_append, hopen, Option.none_or, cut_skip hskip]

/-- A region at the front is gone with all it says. -/
theorem Paired.remove_front (h : Paired opening closing) (ho : opening.Spells fold o)
    (hb : cut fold closing b = none) (hc : closing.Spells fold c) :
    remove fold opening closing (o ++ (b ++ (c ++ r))) = remove fold opening closing r := by
  have hafter : after fold opening (o ++ (b ++ (c ++ r))) = some (b ++ (c ++ r)) :=
    after_spelled ho _
  obtain ⟨x, o, rfl, -, -⟩ := ho.exists_cons
  rw [List.cons_append, remove_cons, ← List.cons_append, hafter, Option.bind_some,
    h.cut_body hb hc]

/-- Continuations that start with a symbol no tag goes past, whose first closing tag ends at the
same place and of which the same is left. -/
theorem remove_append_congr {x x' : α} {q q' : List α} (hx : fold x ∉ opening.tail)
    (hx' : fold x' ∉ opening.tail) (hxc : fold x ∉ closing.tail) (hxc' : fold x' ∉ closing.tail)
    (hcut : cut fold closing (x :: q) = cut fold closing (x' :: q'))
    (hsome : cut fold closing (x :: q) ≠ none)
    (hremove : remove fold opening closing (x :: q) = remove fold opening closing (x' :: q'))
    (p : List α) :
    remove fold opening closing (p ++ x :: q) = remove fold opening closing (p ++ x' :: q') := by
  -- a tag of the text before them ends there, so it is the shorter text that matters
  induction hn : p.length using Nat.strong_induction_on generalizing p with
  | _ n ih =>
      cases p with
      | nil => exact hremove
      | cons y p =>
          have hne : y :: p ≠ [] := List.cons_ne_nil y p
          have hafter := after_append (t := opening) (r := q) hne hx
          have hafter' := after_append (t := opening) (r := q') hne hx'
          rw [List.cons_append] at hafter hafter'
          rw [List.cons_append, List.cons_append, remove_cons, remove_cons, hafter, hafter']
          cases hq : after fold opening (y :: p) with
          | none =>
              simp only [Option.map_none, Option.bind_none]
              rw [ih p.length (by rw [← hn]; exact Nat.lt_succ_self _) p rfl]
          | some u =>
              simp only [Option.map_some, Option.bind_some]
              rw [cut_append hxc, cut_append hxc', ← hcut]
              cases hu : cut fold closing u with
              | none =>
                  obtain ⟨r, hr⟩ := Option.ne_none_iff_exists'.mp hsome
                  rw [hr]
                  rfl
              | some u' =>
                  simp only [Option.map_some, Option.some_or]
                  apply ih u'.length _ u' rfl
                  rw [← hn]
                  exact (Matcher.length_first hu).trans ((tag fold opening).shorter hq)

/-- What a region says, and how its tags are written, has no influence on what is left. -/
theorem Paired.remove_region (h : Paired opening closing) {o' b' c' : List α}
    (ho : opening.Spells fold o) (hb : cut fold closing b = none) (hc : closing.Spells fold c)
    (ho' : opening.Spells fold o') (hb' : cut fold closing b' = none)
    (hc' : closing.Spells fold c') :
    remove fold opening closing (p ++ (o ++ (b ++ (c ++ r)))) =
      remove fold opening closing (p ++ (o' ++ (b' ++ (c' ++ r)))) := by
  have hregion : cut fold closing (o ++ (b ++ (c ++ r))) = some r := by
    rw [h.cut_opening ho, h.cut_body hb hc]
  have hregion' : cut fold closing (o' ++ (b' ++ (c' ++ r))) = some r := by
    rw [h.cut_opening ho', h.cut_body hb' hc']
  have hfront := (h.remove_front (r := r) ho hb hc).trans (h.remove_front ho' hb' hc').symm
  obtain ⟨x, o, rfl, hx, -⟩ := ho.exists_cons
  obtain ⟨x', o', rfl, hx', -⟩ := ho'.exists_cons
  apply remove_append_congr
  · exact hx ▸ h.openingOnce
  · exact hx' ▸ h.openingOnce
  · exact hx ▸ h.head ▸ h.closingOnce
  · exact hx' ▸ h.head ▸ h.closingOnce
  · exact hregion.trans hregion'.symm
  · exact fun hnone => nomatch hregion.symm.trans hnone
  · exact hfront

/-! ### Lists without tags -/

theorem remove_eq_self (h : cut fold opening r = none) : remove fold opening closing r = r := by
  apply Matcher.erase_eq_self
  induction r with
  | nil => rfl
  | cons x r ih =>
      obtain ⟨hafter, hcut⟩ := Matcher.rest_of_first_none h
      have hrest : (region fold opening closing).rest (x :: r) = none :=
        Option.bind_eq_none_iff.mpr fun q hq => nomatch hafter.symm.trans hq
      rw [Matcher.first, hrest, Option.none_or, ih hcut]

theorem erase_eq_self (hopening : cut fold opening r = none) (hclosing : cut fold closing r = none) :
    erase fold opening closing r = r := by
  apply Matcher.erase_eq_self
  induction r with
  | nil => rfl
  | cons x r ih =>
      obtain ⟨hafter, hcut⟩ := Matcher.rest_of_first_none hopening
      obtain ⟨hafter', hcut'⟩ := Matcher.rest_of_first_none hclosing
      have hrest : (either fold opening closing).rest (x :: r) = none :=
        Option.or_eq_none_iff.mpr ⟨hafter, hafter'⟩
      rw [Matcher.first, hrest, Option.none_or, ih hcut hcut']

theorem lastPart_eq_self {t : Tag β} (h : cut fold t r = none) : lastPart fold t r = r := by
  rw [lastPart]
  split
  · rename_i heq
    rw [h] at heq
    cases heq
  · rfl

end Paired
end Regions
