import RuleTrace.Pattern.Preference

/-!
# Matches

`Regex.Matches` is the meaning of an expression: from which place of a text to which other place it
leads.

* `Regex.matches_times_iff`: a repetition is an allowed number of rounds of its body.
* `Regex.exists_of_firstEnd`, `Regex.isSome_firstEnd`: a search by preference finds something
  exactly if a match leads to its goal, and then it comes from a match.
-/

namespace RuleTrace

/-- A number of steps along a relation. -/
def Power (R : Nat → Nat → Prop) : Nat → Nat → Nat → Prop
  | 0, i, j => i = j
  | n + 1, i, j => ∃ k, R i k ∧ Power R n k j

theorem power_add {R : Nat → Nat → Prop} : ∀ (m n i j : Nat),
    Power R (m + n) i j ↔ ∃ k, Power R m i k ∧ Power R n k j
  | 0, n, i, j => by simp [Power]
  | m + 1, n, i, j => by
    rw [Nat.succ_add]
    constructor
    · rintro ⟨l, hr, h⟩
      obtain ⟨k, h1, h2⟩ := (power_add m n l j).1 h
      exact ⟨k, ⟨l, hr, h1⟩, h2⟩
    · rintro ⟨k, ⟨l, hr, h1⟩, h2⟩
      exact ⟨l, hr, (power_add m n l j).2 ⟨k, h1, h2⟩⟩

theorem Power.le_of_le {R : Nat → Nat → Prop} {size : Nat} (hle : ∀ i j, R i j → j ≤ size) :
    ∀ {n i j : Nat}, Power R n i j → i ≤ size → j ≤ size
  | 0, _, _, rfl, hi => hi
  | _ + 1, i, _, ⟨k, hr, hp⟩, _ => hp.le_of_le hle (hle i k hr)

/-- Steps that lead nowhere can be left out, and no more than the rest lead up to a bound. -/
theorem Power.exists_le {R : Nat → Nat → Prop} {size : Nat}
    (hR : ∀ i j, R i j → i ≤ j ∧ j ≤ size) :
    ∀ {n i j : Nat}, Power R n i j → ∃ k, k ≤ size - i ∧ Power R k i j
  | 0, _, _, h => ⟨0, Nat.zero_le _, h⟩
  | n + 1, i, j, ⟨l, hr, hp⟩ => by
    obtain ⟨k, hk, hp⟩ := hp.exists_le hR
    by_cases e : l = i
    · exact ⟨k, e ▸ hk, e ▸ hp⟩
    · have := hR i l hr
      exact ⟨k + 1, by omega, l, hr, hp⟩

theorem power_congr {R R' : Nat → Nat → Prop} (h : ∀ i j, R i j ↔ R' i j) : ∀ n i j : Nat,
    Power R n i j ↔ Power R' n i j
  | 0, _, _ => Iff.rfl
  | n + 1, i, j => exists_congr fun k => and_congr (h i k) (power_congr h n k j)

namespace Regex

/-- The text `t` between the places `i` and `j` matches an expression. -/
inductive Matches (t : Text) : Regex → Nat → Nat → Prop where
  | empty {i : Nat} : i ≤ t.length → Matches t .empty i i
  | chars {i : Nat} {set : CharSet} {c : Char} :
      t[i]? = some c → set.contains c = true → Matches t (.chars set) i (i + 1)
  | anchor {i : Nat} {a : Anchor} :
      i ≤ t.length → a.holds (t.take i).getLast? (t.drop i) = true → Matches t (.anchor a) i i
  | seq {i j k : Nat} {r s : Regex} : Matches t r i j → Matches t s j k → Matches t (.seq r s) i k
  | left {i j : Nat} {r s : Regex} : Matches t r i j → Matches t (.alt r s) i j
  | right {i j : Nat} {r s : Regex} : Matches t s i j → Matches t (.alt r s) i j
  | done {i : Nat} {r : Regex} {further : Option Nat} {lazy : Bool} :
      i ≤ t.length → Matches t (.times r 0 further lazy) i i
  | due {i j k : Nat} {r : Regex} {least : Nat} {further : Option Nat} {lazy : Bool} :
      Matches t r i j → Matches t (.times r least further lazy) j k →
      Matches t (.times r (least + 1) further lazy) i k
  | limited {i j k n : Nat} {r : Regex} {lazy : Bool} :
      Matches t r i j → Matches t (.times r 0 (some n) lazy) j k →
      Matches t (.times r 0 (some (n + 1)) lazy) i k
  | unlimited {i j k : Nat} {r : Regex} {lazy : Bool} :
      Matches t r i j → Matches t (.times r 0 none lazy) j k → Matches t (.times r 0 none lazy) i k
  | atomic {i j : Nat} {r : Regex} :
      i ≤ t.length → r.preferredEnd? t.length (.of t i) = some j → Matches t r i j →
      Matches t (.atomic r) i j

/-- Some part of a text matches an expression. -/
def Occurs (r : Regex) (t : Text) : Prop :=
  ∃ i j, Matches t r i j

theorem Matches.le {t : Text} {r : Regex} {i j : Nat} (h : Matches t r i j) :
    i ≤ t.length ∧ j ≤ t.length := by
  induction h with
  | empty h => exact ⟨h, h⟩
  | chars hc _ =>
    have := (List.getElem?_eq_some_iff.1 hc).1
    exact ⟨by omega, by omega⟩
  | anchor h _ => exact ⟨h, h⟩
  | seq _ _ ih ih' => exact ⟨ih.1, ih'.2⟩
  | left _ ih => exact ih
  | right _ ih => exact ih
  | done h => exact ⟨h, h⟩
  | due _ _ ih ih' => exact ⟨ih.1, ih'.2⟩
  | limited _ _ ih ih' => exact ⟨ih.1, ih'.2⟩
  | unlimited _ _ ih ih' => exact ⟨ih.1, ih'.2⟩
  | atomic _ _ _ ih => exact ih

theorem Matches.start_le {t : Text} {r : Regex} {i j : Nat} (h : Matches t r i j) : i ≤ j := by
  induction h with
  | empty | anchor | done => exact Nat.le_refl _
  | chars => exact Nat.le_succ _
  | seq _ _ ih ih' | due _ _ ih ih' | limited _ _ ih ih' | unlimited _ _ ih ih' =>
    exact Nat.le_trans ih ih'
  | left _ ih | right _ ih | atomic _ _ _ ih => exact ih

/-- The counts of rounds that a repetition allows. -/
def Allowed (least : Nat) (further : Option Nat) (n : Nat) : Prop :=
  least ≤ n ∧ ∀ k, further = some k → n ≤ least + k

/-- A repetition matches what an allowed number of rounds of its body does. -/
theorem matches_times_iff {t : Text} {r : Regex} {least : Nat} {further : Option Nat} {lazy : Bool}
    {i j : Nat} :
    Matches t (.times r least further lazy) i j ↔
      i ≤ t.length ∧ ∃ n, Allowed least further n ∧ Power (Matches t r) n i j := by
  constructor
  · intro h
    refine ⟨h.le.1, ?_⟩
    generalize e : Regex.times r least further lazy = s at h
    induction h generalizing least further with
    | empty | chars | anchor | seq | left | right | atomic => cases e
    | done h =>
      cases e
      exact ⟨0, ⟨Nat.le_refl 0, fun k _ => Nat.zero_le _⟩, rfl⟩
    | due hm _ _ ih =>
      cases e
      obtain ⟨n, ⟨hl, hf⟩, hp⟩ := ih rfl
      exact ⟨n + 1, ⟨by omega, fun k hk => by have := hf k hk; omega⟩, _, hm, hp⟩
    | limited hm _ _ ih =>
      cases e
      obtain ⟨n, ⟨hl, hf⟩, hp⟩ := ih rfl
      refine ⟨n + 1, ⟨by omega, fun k hk => ?_⟩, _, hm, hp⟩
      have := hf _ rfl
      cases hk
      omega
    | unlimited hm _ _ ih =>
      cases e
      obtain ⟨n, ⟨hl, hf⟩, hp⟩ := ih rfl
      exact ⟨n + 1, ⟨by omega, fun k hk => by cases hk⟩, _, hm, hp⟩
  · rintro ⟨hi, n, ha, hp⟩
    induction n generalizing least further i with
    | zero =>
      obtain rfl : least = 0 := by have := ha.1; omega
      obtain rfl : i = j := hp
      exact .done hi
    | succ n ih =>
      obtain ⟨k, hm, hp⟩ := hp
      have hk := hm.le.2
      cases least with
      | succ least =>
        refine .due hm (ih hk ⟨by have := ha.1; omega, fun f hf => ?_⟩ hp)
        have := ha.2 f hf
        omega
      | zero =>
        cases further with
        | none => exact .unlimited hm (ih hk ⟨Nat.zero_le n, fun _ h => by cases h⟩ hp)
        | some f =>
          have hf := ha.2 f rfl
          cases f with
          | zero => omega
          | succ f =>
            refine .limited hm (ih hk ⟨Nat.zero_le n, fun g hg => ?_⟩ hp)
            cases hg
            omega

/-! ## Preferred matches -/

theorem spot_succ {t : Text} {i : Nat} {c : Char} (h : t[i]? = some c) :
    (Spot.of t i).after = c :: t.drop (i + 1) ∧
      Spot.of t (i + 1) = ⟨i + 1, some c, t.drop (i + 1)⟩ := by
  obtain ⟨hi, rfl⟩ := List.getElem?_eq_some_iff.1 h
  refine ⟨List.drop_eq_getElem_cons hi, ?_⟩
  rw [Spot.of, List.take_succ_eq_append_getElem hi, List.getLast?_concat]

section

variable {t : Text} {x : Spot} {R : Nat → Nat → Prop} {body : Goal → Goal} {goal : Goal}

theorem exists_of_due (hle : ∀ i j, R i j → j ≤ t.length)
    (hb : ∀ goal i, i ≤ t.length → body goal (.of t i) = some x →
      ∃ j, R i j ∧ goal (.of t j) = some x) :
    ∀ n i, i ≤ t.length → Goal.due body n goal (.of t i) = some x →
      ∃ j, Power R n i j ∧ goal (.of t j) = some x
  | 0, i, _, h => ⟨i, rfl, h⟩
  | n + 1, i, hi, h => by
    obtain ⟨k, hr, hk⟩ := hb _ i hi h
    obtain ⟨j, hp, hj⟩ := exists_of_due hle hb n k (hle i k hr) hk
    exact ⟨j, ⟨k, hr, hp⟩, hj⟩

theorem exists_of_further {lazy : Bool} (hle : ∀ i j, R i j → j ≤ t.length)
    (hb : ∀ goal i, i ≤ t.length → body goal (.of t i) = some x →
      ∃ j, R i j ∧ goal (.of t j) = some x) :
    ∀ n i, i ≤ t.length → Goal.further body lazy n goal (.of t i) = some x →
      ∃ k, k ≤ n ∧ ∃ j, Power R k i j ∧ goal (.of t j) = some x
  | 0, i, _, h => ⟨0, Nat.le_refl 0, i, rfl, h⟩
  | n + 1, i, hi, h => by
    have h : goal (.of t i) = some x ∨ body (fun next => if next.place = i then goal (.of t i) else
        Goal.further body lazy n goal next) (.of t i) = some x := by
      cases lazy <;> simp [Goal.further] at h <;> grind
    rcases h with h | h
    · exact ⟨0, Nat.zero_le _, i, rfl, h⟩
    · obtain ⟨k, hr, hk⟩ := hb _ i hi h
      by_cases e : k = i
      · exact ⟨0, Nat.zero_le _, i, rfl, by simpa [e] using hk⟩
      · rw [Spot.place_of, if_neg e] at hk
        obtain ⟨m, hm, j, hp, hj⟩ := exists_of_further hle hb n k (hle i k hr) hk
        exact ⟨m + 1, by omega, j, ⟨k, hr, hp⟩, hj⟩

theorem isSome_due
    (hb : ∀ goal i, (∃ j, R i j ∧ (goal (.of t j)).isSome = true) →
      (body goal (.of t i)).isSome = true) :
    ∀ n i, (∃ j, Power R n i j ∧ (goal (.of t j)).isSome = true) →
      (Goal.due body n goal (.of t i)).isSome = true
  | 0, _, ⟨_, rfl, h⟩ => h
  | n + 1, i, ⟨j, ⟨k, hr, hp⟩, h⟩ => hb _ i ⟨k, hr, isSome_due hb n k ⟨j, hp, h⟩⟩

theorem isSome_further {lazy : Bool}
    (hb : ∀ goal i, (∃ j, R i j ∧ (goal (.of t j)).isSome = true) →
      (body goal (.of t i)).isSome = true) :
    ∀ n k, k ≤ n → ∀ i j, Power R k i j → (goal (.of t j)).isSome = true →
      (Goal.further body lazy n goal (.of t i)).isSome = true := by
  intro n
  induction n with
  | zero =>
    intro k hk i j hp h
    obtain rfl := Nat.le_zero.1 hk
    obtain rfl : i = j := hp
    exact h
  | succ n ih =>
    intro k
    induction k with
    | zero =>
      rintro - i j rfl h
      cases lazy <;> simp [Goal.further, h]
    | succ k ihk =>
      rintro hk i j ⟨l, hr, hp⟩ h
      by_cases e : l = i
      · exact ihk (by omega) i j (e ▸ hp) h
      · have : (body (fun next => if next.place = (Spot.of t i).place then goal (.of t i) else
            Goal.further body lazy n goal next) (.of t i)).isSome = true :=
          hb _ i ⟨l, hr, by simpa [e] using ih k (by omega) l j hp h⟩
        cases lazy <;> simp [Goal.further, this, -Spot.place_of]

end

/-- **What a search by preference finds comes from a match.** -/
theorem exists_of_firstEnd {t : Text} {x : Spot} : ∀ (r : Regex) (goal : Goal) (i : Nat),
    i ≤ t.length → r.firstEnd t.length goal (.of t i) = some x →
      ∃ j, Matches t r i j ∧ goal (.of t j) = some x
  | .empty, goal, i, hi, h => ⟨i, .empty hi, h⟩
  | .chars set, goal, i, hi, h => by
    cases hc : t[i]? with
    | none => simp [firstEnd, Spot.of, List.drop_eq_nil_of_le (List.getElem?_eq_none_iff.1 hc)] at h
    | some c =>
      obtain ⟨ha, hn⟩ := spot_succ hc
      rw [firstEnd, ha] at h
      by_cases hs : set.contains c = true
      · exact ⟨i + 1, .chars hc hs, by simpa [hs, hn] using h⟩
      · simp [hs] at h
  | .anchor a, goal, i, hi, h => by
    rw [firstEnd] at h
    split at h
    · rename_i ha
      exact ⟨i, .anchor hi ha, h⟩
    · exact nomatch h
  | .seq q r, goal, i, hi, h => by
    obtain ⟨k, hq, h⟩ := exists_of_firstEnd q _ i hi h
    obtain ⟨j, hr, h⟩ := exists_of_firstEnd r _ k hq.le.2 h
    exact ⟨j, .seq hq hr, h⟩
  | .alt q r, goal, i, hi, h => by
    have h : q.firstEnd t.length goal (.of t i) = some x ∨
        r.firstEnd t.length goal (.of t i) = some x := by
      simp [firstEnd] at h
      exact h.imp id (·.2)
    rcases h with h | h
    · obtain ⟨j, hq, h⟩ := exists_of_firstEnd q _ i hi h
      exact ⟨j, .left hq, h⟩
    · obtain ⟨j, hr, h⟩ := exists_of_firstEnd r _ i hi h
      exact ⟨j, .right hr, h⟩
  | .times r least further lazy, goal, i, hi, h => by
    have hle : ∀ i j, Matches t r i j → j ≤ t.length := fun _ _ hm => hm.le.2
    obtain ⟨k, hp, h⟩ := exists_of_due hle (exists_of_firstEnd r) least i hi h
    have hk : k ≤ t.length := hp.le_of_le hle hi
    obtain ⟨n, hn, j, hp', h⟩ := exists_of_further hle (exists_of_firstEnd r) _ k hk h
    refine ⟨j, matches_times_iff.2 ⟨hi, least + n, ⟨by omega, fun f hf => ?_⟩,
      (power_add ..).2 ⟨k, hp, hp'⟩⟩, h⟩
    subst hf
    exact Nat.add_le_add_left hn least
  | .atomic r, goal, i, hi, h => by
    obtain ⟨y, hy, h⟩ := Option.bind_eq_some_iff.1 h
    obtain ⟨j, hm, e⟩ := exists_of_firstEnd r _ i hi hy
    cases e
    exact ⟨j, .atomic hi (by rw [preferredEnd?, hy]; rfl) hm, h⟩

theorem matches_of_preferredEnd {t : Text} {r : Regex} {i j : Nat} (hi : i ≤ t.length)
    (h : r.preferredEnd? t.length (.of t i) = some j) : Matches t r i j := by
  obtain ⟨x, hx, rfl⟩ := Option.map_eq_some_iff.1 h
  obtain ⟨j, hm, e⟩ := exists_of_firstEnd r some i hi hx
  cases e
  exact hm

/-- **A search by preference finds something if a match leads to the goal.** -/
theorem isSome_firstEnd {t : Text} : ∀ (r : Regex) (goal : Goal) (i : Nat),
    (∃ j, Matches t r i j ∧ (goal (.of t j)).isSome = true) →
      (r.firstEnd t.length goal (.of t i)).isSome = true
  | .empty, goal, i, ⟨j, hm, h⟩ => by
    cases hm
    exact h
  | .chars set, goal, i, ⟨j, hm, h⟩ => by
    cases hm with
    | chars hc hs =>
      obtain ⟨ha, hn⟩ := spot_succ hc
      rw [firstEnd, ha]
      rw [hn] at h
      simpa [hs] using h
  | .anchor a, goal, i, ⟨j, hm, h⟩ => by
    cases hm with
    | anchor _ ha =>
      rw [firstEnd]
      exact (if_pos ha) ▸ h
  | .seq q r, goal, i, ⟨j, hm, h⟩ => by
    cases hm with
    | seq hq hr => exact isSome_firstEnd q _ i ⟨_, hq, isSome_firstEnd r goal _ ⟨j, hr, h⟩⟩
  | .alt q r, goal, i, ⟨j, hm, h⟩ => by
    cases hm with
    | left hq => simp [firstEnd, isSome_firstEnd q goal i ⟨j, hq, h⟩]
    | right hr => simp [firstEnd, isSome_firstEnd r goal i ⟨j, hr, h⟩]
  | .times r least further lazy, goal, i, ⟨j, hm, h⟩ => by
    obtain ⟨hi, n, ⟨hl, hf⟩, hp⟩ := matches_times_iff.1 hm
    obtain ⟨d, rfl⟩ := Nat.exists_eq_add_of_le hl
    obtain ⟨k, hp, hp'⟩ := (power_add ..).1 hp
    refine isSome_due (isSome_firstEnd r) least i ⟨k, hp, ?_⟩
    cases further with
    | some f =>
      have := hf f rfl
      exact isSome_further (isSome_firstEnd r) f d (by omega) k j hp' h
    | none =>
      obtain ⟨e, he, hp'⟩ := hp'.exists_le fun _ _ hm => ⟨hm.start_le, hm.le.2⟩
      exact isSome_further (isSome_firstEnd r) t.length e (by omega) k j hp' h
  | .atomic r, goal, i, ⟨j, hm, h⟩ => by
    cases hm with
    | atomic hi hj _ =>
      obtain ⟨x, hx, rfl⟩ := Option.map_eq_some_iff.1 hj
      obtain ⟨j, _, e⟩ := exists_of_firstEnd r some i hi hx
      cases e
      rw [firstEnd, hx]
      exact h

end Regex

end RuleTrace
