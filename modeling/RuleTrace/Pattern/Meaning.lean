import RuleTrace.Pattern.Matches
import RuleTrace.Pattern.Search

/-!
# What a search finds

The search for an expression is right: `Regex.search_iff` says that it succeeds exactly if some
part of the text matches. Each step on sets of places is shown to follow a relation between places
(`Places.Follows`), and the relation for a repetition is a power of that for its body.
-/

namespace RuleTrace

namespace Places

/-- Whether a place belongs to a set. -/
def Has (m : Places) (i : Nat) : Prop :=
  m[i]? = some true

theorem has_union {m n : Places} (h : m.length = n.length) (i : Nat) :
    (m.union n).Has i ↔ m.Has i ∨ n.Has i := by
  unfold Has union
  rw [List.getElem?_zipWith]
  by_cases hi : i < m.length
  · rw [List.getElem?_eq_getElem hi, List.getElem?_eq_getElem (h ▸ hi)]
    simp
  · rw [List.getElem?_eq_none (by omega), List.getElem?_eq_none (by omega)]
    simp

theorem has_inter {m n : Places} (h : m.length = n.length) (i : Nat) :
    (m.inter n).Has i ↔ m.Has i ∧ n.Has i := by
  unfold Has inter
  rw [List.getElem?_zipWith]
  by_cases hi : i < m.length
  · rw [List.getElem?_eq_getElem hi, List.getElem?_eq_getElem (h ▸ hi)]
    simp
  · rw [List.getElem?_eq_none (by omega), List.getElem?_eq_none (by omega)]
    simp

theorem length_union {m n : Places} (h : m.length = n.length) : (m.union n).length = m.length := by
  simp [union, h]

/-! ## Steps and relations -/

/-- A step on sets of `size` places goes from each place to those that a relation leads to. -/
def Follows (size : Nat) (step : Places → Places) (R : Nat → Nat → Prop) : Prop :=
  ∀ m : Places, m.length = size →
    (step m).length = size ∧ ∀ j, (step m).Has j ↔ ∃ i, m.Has i ∧ R i j

variable {size : Nat} {step : Places → Places} {R : Nat → Nat → Prop}

theorem Follows.comp {step' : Places → Places} {R' : Nat → Nat → Prop} (h : Follows size step R)
    (h' : Follows size step' R') :
    Follows size (fun m => step' (step m)) fun i j => ∃ k, R i k ∧ R' k j := by
  intro m hm
  obtain ⟨hl, hs⟩ := h m hm
  obtain ⟨hl', hs'⟩ := h' (step m) hl
  refine ⟨hl', fun j => (hs' j).trans ⟨?_, ?_⟩⟩
  · rintro ⟨k, hk, hr'⟩
    obtain ⟨i, hi, hr⟩ := (hs k).1 hk
    exact ⟨i, hi, k, hr, hr'⟩
  · rintro ⟨i, hi, k, hr, hr'⟩
    exact ⟨k, (hs k).2 ⟨i, hi, hr⟩, hr'⟩

theorem Follows.union {step' : Places → Places} {R' : Nat → Nat → Prop} (h : Follows size step R)
    (h' : Follows size step' R') :
    Follows size (fun m => (step m).union (step' m)) fun i j => R i j ∨ R' i j := by
  intro m hm
  obtain ⟨hl, hs⟩ := h m hm
  obtain ⟨hl', hs'⟩ := h' m hm
  refine ⟨(length_union (hl.trans hl'.symm)).trans hl, fun j => ?_⟩
  rw [has_union (hl.trans hl'.symm), hs, hs']
  constructor
  · rintro (⟨i, hi, hr⟩ | ⟨i, hi, hr⟩)
    · exact ⟨i, hi, .inl hr⟩
    · exact ⟨i, hi, .inr hr⟩
  · rintro ⟨i, hi, hr | hr⟩
    · exact .inl ⟨i, hi, hr⟩
    · exact .inr ⟨i, hi, hr⟩

theorem follows_id : Follows size (fun m => m) Eq :=
  fun _ hm => ⟨hm, fun j => ⟨fun h => ⟨j, h, rfl⟩, fun ⟨_, h, e⟩ => e ▸ h⟩⟩

theorem Follows.congr {R' : Nat → Nat → Prop} (h : Follows size step R)
    (e : ∀ i, i < size → ∀ j, R i j ↔ R' i j) : Follows size step R' := by
  intro m hm
  obtain ⟨hl, hs⟩ := h m hm
  refine ⟨hl, fun j => (hs j).trans ⟨?_, ?_⟩⟩
  · rintro ⟨i, hi, hr⟩
    exact ⟨i, hi, (e i (hm ▸ (List.getElem?_eq_some_iff.1 hi).1) j).1 hr⟩
  · rintro ⟨i, hi, hr⟩
    exact ⟨i, hi, (e i (hm ▸ (List.getElem?_eq_some_iff.1 hi).1) j).2 hr⟩

/-! ## Repeated steps -/

theorem iterate_of_fixed {m : Places} (h : step m = m) (n : Nat) : iterate step n m = m := by
  cases n with
  | zero => rfl
  | succ n => simp [iterate, h]

/-- Stopping early changes nothing. -/
theorem iterate_succ (step : Places → Places) (n : Nat) (m : Places) :
    iterate step (n + 1) m = iterate step n (step m) := by
  by_cases h : step m = m
  · rw [iterate_of_fixed h, h, iterate_of_fixed h]
  · simp [iterate, h]

theorem Follows.iterate (h : Follows size step R) :
    ∀ n, Follows size (iterate step n) (Power R n)
  | 0 => follows_id
  | n + 1 => by
    have : Places.iterate step (n + 1) = fun m => Places.iterate step n (step m) :=
      funext fun m => iterate_succ step n m
    rw [this]
    exact h.comp (h.iterate n)

/-- Up to a number of steps, each of them optional. -/
theorem power_or_eq_iff (n : Nat) : ∀ i j,
    Power (fun i j => i = j ∨ R i j) n i j ↔ ∃ k, k ≤ n ∧ Power R k i j := by
  induction n with
  | zero =>
    intro i j
    constructor
    · exact fun h => ⟨0, Nat.le_refl 0, h⟩
    · rintro ⟨k, hk, h⟩
      obtain rfl := Nat.le_zero.1 hk
      exact h
  | succ n ih =>
    intro i j
    constructor
    · rintro ⟨l, rfl | hr, h⟩
      · obtain ⟨k, hk, hp⟩ := (ih i j).1 h
        exact ⟨k, by omega, hp⟩
      · obtain ⟨k, hk, hp⟩ := (ih l j).1 h
        exact ⟨k + 1, by omega, l, hr, hp⟩
    · rintro ⟨k, hk, hp⟩
      cases k with
      | zero => exact ⟨i, .inl rfl, (ih i j).2 ⟨0, Nat.zero_le n, hp⟩⟩
      | succ k =>
        obtain ⟨l, hr, hp⟩ := hp
        exact ⟨l, .inr hr, (ih l j).2 ⟨k, by omega, hp⟩⟩

theorem Follows.spread (h : Follows size step R) (n : Nat) :
    Follows size (spread step n) fun i j => ∃ k, k ≤ n ∧ Power R k i j :=
  ((follows_id.union h).iterate n).congr fun i _ j => power_or_eq_iff n i j

/-! ## Spreading without a limit -/

theorem union_eq_or_count_lt : ∀ m n : Places, m.length = n.length →
    m.union n = m ∨ (m.union n).count false < m.count false
  | [], _, _ => .inl rfl
  | _ :: _, [], h => by simp at h
  | a :: m, b :: n, h => by
    unfold union
    rcases union_eq_or_count_lt m n (by simpa using h) with e | hlt
    · unfold union at e
      cases a <;> cases b <;> simp [e]
    · unfold union at hlt
      cases a <;> cases b <;> simp [hlt]
      omega

/-- After as many steps as there are places, spreading adds nothing. -/
theorem Follows.spread_fixed (h : Follows size step R) : ∀ (n : Nat) (m : Places),
    m.length = size → m.count false ≤ n →
      (Places.spread step n m).union (step (Places.spread step n m)) = Places.spread step n m := by
  intro n
  induction n with
  | zero =>
    intro m hm hc
    rcases union_eq_or_count_lt m (step m) (hm.trans (h m hm).1.symm) with e | hlt
    · exact e
    · omega
  | succ n ih =>
    intro m hm hc
    have hl := hm.trans (h m hm).1.symm
    have e : Places.spread step (n + 1) m = Places.spread step n (m.union (step m)) :=
      iterate_succ _ n m
    rw [e]
    rcases union_eq_or_count_lt m (step m) hl with e' | hlt
    · have : Places.spread step n (m.union (step m)) = m := by
        rw [e']
        exact @iterate_of_fixed (fun m => m.union (step m)) _ e' n
      rw [this]
      exact e'
    · exact ih _ ((length_union hl).trans hm) (by omega)

theorem Follows.spread_unlimited (h : Follows size step R) :
    Follows size (Places.spread step size) fun i j => ∃ k, Power R k i j := by
  intro m hm
  obtain ⟨hl, hs⟩ := h.spread size m hm
  refine ⟨hl, fun j => (hs j).trans ⟨?_, ?_⟩⟩
  · rintro ⟨i, hi, k, -, hp⟩
    exact ⟨i, hi, k, hp⟩
  · rintro ⟨i, hi, k, hp⟩
    have hfix := h.spread_fixed size m hm (hm ▸ List.count_le_length)
    have hclosed : ∀ (k i : Nat), (Places.spread step size m).Has i → Power R k i j →
        (Places.spread step size m).Has j := by
      intro k
      induction k with
      | zero => exact fun i hi e => e ▸ hi
      | succ k ih =>
        rintro i hi ⟨l, hr, hp⟩
        refine ih l ?_ hp
        rw [← hfix, has_union (hl.trans (h _ hl).1.symm)]
        exact .inr (((h _ hl).2 l).2 ⟨i, hi, hr⟩)
    exact (hs j).1 (hclosed k i ((hs i).2 ⟨i, hi, 0, Nat.zero_le size, rfl⟩) hp)

/-! ## Single characters -/

/-- One character of a set leads from a place to the next one. -/
def CharStep (set : CharSet) (t : Text) (i j : Nat) : Prop :=
  (∃ c, t[i]? = some c ∧ set.contains c = true) ∧ j = i + 1

theorem follows_shift (set : CharSet) (t : Text) :
    Follows (t.length + 1) (shift set t) (CharStep set t) := by
  intro m hm
  refine ⟨by simp [shift, hm], fun j => ?_⟩
  unfold Has shift CharStep
  cases j with
  | zero => simp
  | succ j =>
    rw [List.getElem?_cons_succ, List.getElem?_zipWith]
    constructor
    · intro e
      refine ⟨j, ?_, ?_, rfl⟩ <;> cases hb : m[j]? <;> cases hc : t[j]? <;> simp_all
    · rintro ⟨i, hi, ⟨c, hc, hs⟩, e⟩
      obtain rfl : j = i := by omega
      simp [hi, hc, hs]

theorem has_cons_succ (b : Bool) (m : Places) (i : Nat) : Has (b :: m) (i + 1) ↔ m.Has i := by
  simp [Has]

theorem has_cons_zero (b : Bool) (m : Places) : Has (b :: m) 0 ↔ b = true := by
  simp [Has]

theorem length_sweep (set : CharSet) : ∀ (reached : Bool) (t : Text) (m : Places),
    m.length = t.length + 1 → (sweep set reached t m).length = m.length
  | _, _, [], h => by simp at h
  | _, [], _ :: _, _ => by simp [sweep]
  | _, _ :: t, _ :: m, h => by
    simp [sweep, length_sweep set _ t m (by simpa using h)]

/-- A run of characters from one place to another. -/
def CharRun (set : CharSet) (t : Text) (i j : Nat) : Prop :=
  i ≤ j ∧ ∀ k, i ≤ k → k < j → ∃ c, t[k]? = some c ∧ set.contains c = true

theorem charRun_zero_succ {set : CharSet} {c : Char} {t : Text} {j : Nat} :
    CharRun set (c :: t) 0 (j + 1) ↔ set.contains c = true ∧ CharRun set t 0 j := by
  constructor
  · rintro ⟨-, h⟩
    refine ⟨?_, Nat.zero_le j, fun k _ hk => ?_⟩
    · obtain ⟨d, hd, hs⟩ := h 0 (Nat.le_refl 0) (by omega)
      simp at hd
      exact hd ▸ hs
    · simpa using h (k + 1) (by omega) (by omega)
  · rintro ⟨hc, -, h⟩
    refine ⟨Nat.zero_le _, fun k _ hk => ?_⟩
    cases k with
    | zero => exact ⟨c, rfl, hc⟩
    | succ k => simpa using h k (by omega) (by omega)

theorem charRun_succ_succ {set : CharSet} {c : Char} {t : Text} {i j : Nat} :
    CharRun set (c :: t) (i + 1) (j + 1) ↔ CharRun set t i j := by
  constructor
  · rintro ⟨hle, h⟩
    refine ⟨by omega, fun k hik hkj => ?_⟩
    simpa using h (k + 1) (by omega) (by omega)
  · rintro ⟨hle, h⟩
    refine ⟨by omega, fun k hik hkj => ?_⟩
    cases k with
    | zero => omega
    | succ k => simpa using h k (by omega) (by omega)

theorem has_sweep (set : CharSet) : ∀ (reached : Bool) (t : Text) (m : Places),
    m.length = t.length + 1 → ∀ j, (sweep set reached t m).Has j ↔
      j < m.length ∧
        ((reached = true ∧ CharRun set t 0 j) ∨ ∃ i, m.Has i ∧ CharRun set t i j)
  | _, _, [], h, _ => by simp at h
  | reached, [], b :: m, h, j => by
    obtain rfl : m = [] := by simpa using h
    cases j with
    | zero =>
      rw [sweep, has_cons_zero]
      constructor
      · intro e
        refine ⟨by simp, ?_⟩
        rcases Bool.or_eq_true_iff.1 e with e | e
        · exact .inl ⟨e, Nat.le_refl 0, fun k _ hk => absurd hk (Nat.not_lt_zero k)⟩
        · exact .inr ⟨0, e ▸ rfl, Nat.le_refl 0, fun k _ hk => absurd hk (Nat.not_lt_zero k)⟩
      · rintro ⟨-, ⟨e, -⟩ | ⟨i, hi, hle, -⟩⟩
        · simp [e]
        · obtain rfl := Nat.le_zero.1 hle
          simp [(has_cons_zero b []).1 hi]
    | succ j =>
      constructor
      · intro e
        simp [sweep, Has] at e
      · rintro ⟨hj, -⟩
        simp at hj
  | reached, c :: t, b :: m, h, j => by
    have hm : m.length = t.length + 1 := by simpa using h
    cases j with
    | zero =>
      rw [sweep, has_cons_zero]
      constructor
      · intro e
        refine ⟨by simp, ?_⟩
        rcases Bool.or_eq_true_iff.1 e with e | e
        · exact .inl ⟨e, Nat.le_refl 0, fun k _ hk => absurd hk (Nat.not_lt_zero k)⟩
        · exact .inr ⟨0, e ▸ rfl, Nat.le_refl 0, fun k _ hk => absurd hk (Nat.not_lt_zero k)⟩
      · rintro ⟨-, ⟨e, -⟩ | ⟨i, hi, hle, -⟩⟩
        · simp [e]
        · obtain rfl := Nat.le_zero.1 hle
          simp [(has_cons_zero b m).1 hi]
    | succ j =>
      rw [sweep, has_cons_succ, has_sweep set _ t m hm j, List.length_cons]
      constructor
      · rintro ⟨hj, ⟨e, hr⟩ | ⟨i, hi, hr⟩⟩
        · refine ⟨by omega, ?_⟩
          obtain ⟨e, hc⟩ := Bool.and_eq_true_iff.1 e
          rcases Bool.or_eq_true_iff.1 e with e | e
          · exact .inl ⟨e, charRun_zero_succ.2 ⟨hc, hr⟩⟩
          · exact .inr ⟨0, (has_cons_zero b m).2 e, charRun_zero_succ.2 ⟨hc, hr⟩⟩
        · exact ⟨by omega, .inr ⟨i + 1, (has_cons_succ b m i).2 hi, charRun_succ_succ.2 hr⟩⟩
      · rintro ⟨hj, ⟨e, hr⟩ | ⟨i, hi, hr⟩⟩
        · obtain ⟨hc, hr⟩ := charRun_zero_succ.1 hr
          exact ⟨by omega, .inl ⟨by simp [e, hc], hr⟩⟩
        · cases i with
          | zero =>
            obtain ⟨hc, hr⟩ := charRun_zero_succ.1 hr
            exact ⟨by omega, .inl ⟨by simp [(has_cons_zero b m).1 hi, hc], hr⟩⟩
          | succ i =>
            exact ⟨by omega, .inr ⟨i, (has_cons_succ b m i).1 hi, charRun_succ_succ.1 hr⟩⟩

theorem power_charStep_iff {set : CharSet} {t : Text} : ∀ (n i j : Nat),
    Power (CharStep set t) n i j ↔ j = i + n ∧ CharRun set t i j
  | 0, i, j => by
    constructor
    · rintro rfl
      exact ⟨rfl, Nat.le_refl i, fun k h h' => by omega⟩
    · rintro ⟨rfl, -⟩
      rfl
  | n + 1, i, j => by
    constructor
    · rintro ⟨k, ⟨hc, rfl⟩, h⟩
      obtain ⟨rfl, hle, hr⟩ := (power_charStep_iff n _ j).1 h
      refine ⟨by omega, by omega, fun k hk hk' => ?_⟩
      by_cases e : k = i
      · exact e ▸ hc
      · exact hr k (by omega) hk'
    · rintro ⟨rfl, hle, hr⟩
      refine ⟨i + 1, ⟨hr i (Nat.le_refl i) (by omega), rfl⟩, ?_⟩
      exact (power_charStep_iff n _ _).2 ⟨by omega, by omega, fun k hk => hr k (by omega)⟩

theorem follows_sweep (set : CharSet) (t : Text) :
    Follows (t.length + 1) (sweep set false t) fun i j => ∃ n, Power (CharStep set t) n i j := by
  intro m hm
  refine ⟨(length_sweep set false t m hm).trans hm, fun j => ?_⟩
  rw [has_sweep set false t m hm j]
  constructor
  · rintro ⟨hj, ⟨e, -⟩ | ⟨i, hi, hr⟩⟩
    · exact absurd e Bool.false_ne_true
    · have := hr.1
      exact ⟨i, hi, j - i, (power_charStep_iff _ i j).2 ⟨by omega, hr⟩⟩
  · rintro ⟨i, hi, n, h⟩
    obtain ⟨rfl, hr⟩ := (power_charStep_iff n i j).1 h
    have := (List.getElem?_eq_some_iff.1 hi).1
    refine ⟨?_, .inr ⟨i, hi, hr⟩⟩
    cases n with
    | zero => omega
    | succ n =>
      obtain ⟨c, hc, -⟩ := hr.2 (i + n) (by omega) (by omega)
      have := (List.getElem?_eq_some_iff.1 hc).1
      omega

/-! ## Spots -/

theorem length_all (i : Nat) (before : Option Char) : ∀ t : Text,
    (Spot.all i before t).length = t.length + 1
  | [] => rfl
  | c :: t => by simp [Spot.all, length_all (i + 1) (some c) t]

theorem getElem?_all (i : Nat) (before : Option Char) : ∀ (t : Text) (k : Nat), k ≤ t.length →
    (Spot.all i before t)[k]? = some ⟨i + k, (t.take k).getLast?.or before, t.drop k⟩
  | [], k, h => by
    obtain rfl : k = 0 := by simpa using h
    simp [Spot.all]
  | c :: t, 0, _ => by simp [Spot.all]
  | c :: t, k + 1, h => by
    have := getElem?_all (i + 1) (some c) t k (by simpa using h)
    simp only [Spot.all, List.getElem?_cons_succ, this, List.take_succ_cons,
      List.drop_succ_cons, List.getLast?_cons, Nat.add_right_comm i 1 k, Nat.add_assoc]
    cases (t.take k).getLast? <;> simp

theorem getElem?_all_zero {t : Text} {i : Nat} (h : i ≤ t.length) :
    (Spot.all 0 none t)[i]? = some (.of t i) := by
  simp [getElem?_all 0 none t i h, Spot.of]

theorem has_lead {next : Spot → Option Nat} {t : Text} {m : Places} (hm : m.length = t.length + 1)
    (j : Nat) :
    (lead next t m).Has j ↔ j < m.length ∧ ∃ i, m.Has i ∧ next (.of t i) = some j := by
  have hend (i : Nat) : (List.zipWith (fun here s => if here then next s else none) m
      (Spot.all 0 none t))[i]? = some (some j) ↔ m.Has i ∧ next (.of t i) = some j := by
    rw [List.getElem?_zipWith, Has]
    by_cases hi : i < m.length
    · rw [List.getElem?_eq_getElem hi, getElem?_all_zero (by omega)]
      cases m[i] <;> simp
    · simp [List.getElem?_eq_none (Nat.le_of_not_lt hi)]
  have hmem : j ∈ ((List.zipWith (fun here s => if here then next s else none) m
      (Spot.all 0 none t)).filterMap id).eraseDups ↔ ∃ i, m.Has i ∧ next (.of t i) = some j := by
    simp only [List.mem_eraseDups, List.mem_filterMap, id, exists_eq_right]
    exact List.mem_iff_getElem?.trans (exists_congr hend)
  rw [← hmem, Has, lead, List.getElem?_map, Option.map_eq_some_iff]
  constructor
  · rintro ⟨k, hk, h⟩
    obtain ⟨hlt, rfl⟩ := List.getElem?_eq_some_iff.1 hk
    rw [List.getElem_range] at h
    exact ⟨by simpa using hlt, List.contains_iff_mem.1 h⟩
  · rintro ⟨hj, h⟩
    exact ⟨j, List.getElem?_range hj, List.contains_iff_mem.2 h⟩

theorem follows_lead {t : Text} {next : Spot → Option Nat}
    (h : ∀ i, i ≤ t.length → ∀ j, next (.of t i) = some j → j ≤ t.length) :
    Follows (t.length + 1) (lead next t) fun i j => next (.of t i) = some j := by
  intro m hm
  refine ⟨by simp [lead, hm], fun j => (has_lead hm j).trans ⟨And.right, ?_⟩⟩
  rintro ⟨i, hi, hj⟩
  have := (List.getElem?_eq_some_iff.1 hi).1
  exact ⟨hm ▸ Nat.lt_succ_of_le (h i (by omega) j hj), i, hi, hj⟩

/-- A condition keeps the places where it holds. -/
theorem has_places {a : Anchor} {t : Text} {i : Nat} (h : i ≤ t.length) :
    (a.places t).Has i ↔ a.holds (t.take i).getLast? (t.drop i) = true := by
  simp [Has, Anchor.places, getElem?_all_zero h, Spot.of]

end Places

/-! ## Expressions -/

namespace Regex

open Places

theorem matches_chars_iff {t : Text} {set : CharSet} {i j : Nat} :
    Matches t (.chars set) i j ↔ CharStep set t i j := by
  constructor
  · intro h
    cases h with
    | chars hc hs => exact ⟨⟨_, hc, hs⟩, rfl⟩
  · rintro ⟨⟨c, hc, hs⟩, rfl⟩
    exact .chars hc hs

/-- The step of an expression follows its matches. -/
theorem follows_advance (t : Text) : ∀ r : Regex,
    Follows (t.length + 1) (r.advance t) (Matches t r)
  | .empty => follows_id.congr fun i hi j =>
      ⟨fun e => e ▸ .empty (by omega), fun h => by cases h; rfl⟩
  | .chars set => (follows_shift set t).congr fun _ _ _ => matches_chars_iff.symm
  | .anchor a => by
    intro m hm
    have hl : m.length = (a.places t).length := by
      rw [hm, Anchor.places, List.length_map, length_all]
    refine ⟨by simp [advance, inter, ← hl, hm], fun j => ?_⟩
    rw [advance, has_inter hl]
    constructor
    · rintro ⟨hj, ha⟩
      have hle : j ≤ t.length := by have := (List.getElem?_eq_some_iff.1 hj).1; omega
      exact ⟨j, hj, .anchor hle ((has_places hle).1 ha)⟩
    · rintro ⟨i, hi, h⟩
      cases h with
      | anchor hle ha => exact ⟨hi, (has_places hle).2 ha⟩
  | .seq r s => ((follows_advance t r).comp (follows_advance t s)).congr fun i _ j =>
      ⟨fun ⟨_, h, h'⟩ => .seq h h', fun h => by
        cases h with
        | seq h h' => exact ⟨_, h, h'⟩⟩
  | .alt r s => ((follows_advance t r).union (follows_advance t s)).congr fun i _ j =>
      ⟨fun h => h.elim .left .right, fun h => by
        cases h with
        | left h => exact .inl h
        | right h => exact .inr h⟩
  | .times r least further lazy => by
    have ih := follows_advance t r
    have hbase := ih.iterate least
    have hrest : ∃ step, Regex.advance t (.times r least further lazy) =
        (fun m => step (iterate (r.advance t) least m)) ∧
        Follows (t.length + 1) step fun i j =>
          ∃ n, (∀ k, further = some k → n ≤ k) ∧ Power (Matches t r) n i j := by
      cases further with
      | some k =>
        refine ⟨spread (r.advance t) k, funext fun m => ?_, (ih.spread k).congr fun i _ j => ?_⟩
        · cases r <;> rfl
        · exact ⟨fun ⟨n, hn, h⟩ => ⟨n, fun _ e => by cases e; exact hn, h⟩,
            fun ⟨n, hn, h⟩ => ⟨n, hn k rfl, h⟩⟩
      | none =>
        have hany : ∀ i j : Nat, (∃ n, Power (Matches t r) n i j) ↔
            ∃ n, (∀ k, (none : Option Nat) = some k → n ≤ k) ∧ Power (Matches t r) n i j :=
          fun i j => ⟨fun ⟨n, h⟩ => ⟨n, fun _ e => (nomatch e), h⟩, fun ⟨n, _, h⟩ => ⟨n, h⟩⟩
        have hspread := ih.spread_unlimited.congr fun i _ j => hany i j
        cases r with
        | chars set =>
          refine ⟨sweep set false t, rfl, (follows_sweep set t).congr fun i _ j => ?_⟩
          rw [← hany]
          exact exists_congr fun n => power_congr (fun _ _ => matches_chars_iff.symm) n i j
        | empty | anchor | seq | alt | times | atomic =>
          exact ⟨spread (Regex.advance t _) (t.length + 1), rfl, hspread⟩
    obtain ⟨step, e, hstep⟩ := hrest
    rw [e]
    refine (hbase.comp hstep).congr fun i hi j => ?_
    rw [matches_times_iff]
    constructor
    · rintro ⟨k, h1, n, hn, h2⟩
      refine ⟨by omega, least + n, ⟨by omega, fun f hf => ?_⟩, (power_add ..).2 ⟨k, h1, h2⟩⟩
      have := hn f hf
      omega
    · rintro ⟨-, n, ⟨hl, hf⟩, h⟩
      obtain ⟨d, rfl⟩ := Nat.exists_eq_add_of_le hl
      obtain ⟨k, h1, h2⟩ := (power_add ..).1 h
      exact ⟨k, h1, d, fun f e => by have := hf f e; omega, h2⟩

  | .atomic r => by
    refine (follows_lead fun i hi j h => (matches_of_preferredEnd hi h).le.2).congr fun i hi j => ?_
    have hi := Nat.le_of_lt_succ hi
    refine ⟨fun h => .atomic hi h (matches_of_preferredEnd hi h), fun h => ?_⟩
    cases h with
    | atomic _ h _ => exact h

/-- **A search succeeds exactly if some part of the text matches.** -/
theorem search_iff (r : Regex) (t : Text) : r.search t = true ↔ r.Occurs t := by
  have h := (follows_advance t r (List.replicate (t.length + 1) true) (by simp)).2
  rw [search, List.any_eq_true]
  constructor
  · rintro ⟨b, hb, e⟩
    obtain rfl : b = true := e
    obtain ⟨j, hj⟩ := List.mem_iff_getElem?.1 hb
    obtain ⟨i, -, hm⟩ := (h j).1 hj
    exact ⟨i, j, hm⟩
  · rintro ⟨i, j, hm⟩
    have hi := hm.le.1
    refine ⟨true, List.mem_iff_getElem?.2 ⟨j, (h j).2 ⟨i, ?_, hm⟩⟩, rfl⟩
    exact List.getElem?_eq_some_iff.2 ⟨by simpa using Nat.lt_succ_of_le hi, by simp⟩

end Regex

end RuleTrace
