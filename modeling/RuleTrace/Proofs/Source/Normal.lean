import RuleTrace.Proofs.Text.Lines
import RuleTrace.Source.Basic

/-!
# The normal form of a source in parts

* `normalize_append`: a text that is cut anywhere but inside a line end can be brought into its
  normal form in parts.
* `lineEnd_induction`, `mem_normalize`: the normal form one line end after the other, and the
  characters in it.
* `normalize_of_paired`: if every carriage return stands before a newline, the normal form has a
  space for every tab and a newline for every line end, and nothing else changes.
* `count_normalize`, `lastLineLength_normalize`: lines and columns are the same in the normal form
  then.
-/

namespace RuleTrace.Text

/-- Whether one text ends with a carriage return and the next one starts with the newline that
belongs to it. -/
def Splits (a b : Text) : Prop :=
  a.getLast? = some '\r' ∧ b.head? = some '\n'

instance (a b : Text) : Decidable (Splits a b) :=
  inferInstanceAs (Decidable (_ ∧ _))

/-- Whether an offset is between a carriage return and the newline after it. -/
def SplitsLineEnd (t : Text) (offset : Nat) : Prop :=
  Splits (t.take offset) (t.drop offset)

instance (t : Text) (offset : Nat) : Decidable (t.SplitsLineEnd offset) :=
  inferInstanceAs (Decidable (Splits _ _))

/-- Whether there is a newline after every carriage return. -/
def ReturnsPaired : Text → Prop
  | [] => True
  | c :: t => (c = '\r' → t.head? = some '\n') ∧ ReturnsPaired t

instance decidableReturnsPaired : (t : Text) → Decidable (ReturnsPaired t)
  | [] => isTrue trivial
  | _ :: t =>
    have := decidableReturnsPaired t
    inferInstanceAs (Decidable (_ ∧ _))

/-! ## Cuts -/

section
variable {a b : Text}

theorem Splits.of_cons {c : Char} (hne : a ≠ []) (h : Splits a b) : Splits (c :: a) b := by
  obtain ⟨d, a, rfl⟩ := List.exists_cons_of_ne_nil hne
  exact ⟨by rw [List.getLast?_cons_cons]; exact h.1, h.2⟩

theorem head?_append_of_ne_nil (h : a ≠ []) : (a ++ b).head? = a.head? := by
  obtain ⟨c, a, rfl⟩ := List.exists_cons_of_ne_nil h
  rfl

theorem joinLineEnds_append (h : ¬Splits a b) :
    joinLineEnds (a ++ b) = joinLineEnds a ++ joinLineEnds b := by
  induction a with
  | nil => rfl
  | cons c a ih =>
    rw [List.cons_append, joinLineEnds, joinLineEnds]
    by_cases hne : a = []
    · subst hne
      have hc : ¬(c = '\r' ∧ b.head? = some '\n') := fun hc => h ⟨by simp [hc.1], hc.2⟩
      rw [List.nil_append, if_neg hc, if_neg (by simp)]
      rfl
    · rw [ih fun hs => h (hs.of_cons hne), head?_append_of_ne_nil hne]
      split <;> rfl

theorem head?_expandTabs_eq_newline (t : Text) :
    t.expandTabs.head? = some '\n' ↔ t.head? = some '\n' := by
  cases t with
  | nil => rfl
  | cons c t =>
    simp only [expandTabs, List.map_cons, List.head?_cons, Option.some.injEq]
    split
    · next hc => simp [hc]
    · rfl

theorem getLast?_expandTabs_eq_return (t : Text) :
    t.expandTabs.getLast? = some '\r' ↔ t.getLast? = some '\r' := by
  rw [expandTabs, List.getLast?_map]
  cases t.getLast? with
  | none => rfl
  | some c =>
    simp only [Option.map_some, Option.some.injEq]
    split
    · next hc => simp [hc]
    · rfl

/-- A text that is cut outside its line ends has its normal form in parts. -/
theorem normalize_append (h : ¬Splits a b) : normalize (a ++ b) = normalize a ++ normalize b := by
  have hs : ¬Splits a.expandTabs b.expandTabs := by
    rw [Splits, getLast?_expandTabs_eq_return, head?_expandTabs_eq_newline]
    exact h
  have htabs : (a ++ b).expandTabs = a.expandTabs ++ b.expandTabs := List.map_append
  rw [normalize, htabs, joinLineEnds_append hs, replaceReturns, List.map_append]
  rfl

/-! ## One line end after the other -/

/-- Induction along a text, a carriage return and the newline after it taken together. -/
@[elab_as_elim]
theorem lineEnd_induction {motive : Text → Prop} (nil : motive [])
    (pair : ∀ t, motive t → motive ('\r' :: '\n' :: t))
    (lone : ∀ t, t.head? ≠ some '\n' → motive t → motive ('\r' :: t))
    (other : ∀ c t, c ≠ '\r' → motive t → motive (c :: t)) : ∀ t, motive t
  | [] => nil
  | c :: t => by
    by_cases hc : c = '\r'
    · subst hc
      cases t with
      | nil => exact lone [] (by simp) nil
      | cons d t =>
        by_cases hd : d = '\n'
        · subst hd
          exact pair t (lineEnd_induction nil pair lone other t)
        · exact lone (d :: t) (by simpa using hd) (lineEnd_induction nil pair lone other (d :: t))
    · exact other c t hc (lineEnd_induction nil pair lone other t)

theorem normalize_pair (t : Text) : normalize ('\r' :: '\n' :: t) = '\n' :: normalize t :=
  normalize_append (a := ['\r', '\n']) (by simp [Splits])

theorem normalize_lone {t : Text} (h : t.head? ≠ some '\n') :
    normalize ('\r' :: t) = '\n' :: normalize t :=
  normalize_append (a := ['\r']) fun hs => h hs.2

theorem normalize_cons {c : Char} (hc : c ≠ '\r') (t : Text) :
    normalize (c :: t) = (if c = '\t' then ' ' else c) :: normalize t := by
  have hone : normalize [c] = [if c = '\t' then ' ' else c] := by
    by_cases htab : c = '\t'
    · subst htab
      rfl
    · simp [normalize, expandTabs, joinLineEnds, replaceReturns, htab, hc]
  have happ : normalize ([c] ++ t) = normalize [c] ++ normalize t :=
    normalize_append fun hs => hc (by simpa using hs.1)
  rw [← List.singleton_append, happ, hone]
  rfl

theorem mem_of_mem_joinLineEnds {c : Char} {t : Text} (h : c ∈ joinLineEnds t) : c ∈ t := by
  induction t with
  | nil => exact h
  | cons d t ih =>
    rw [joinLineEnds] at h
    split at h
    · exact List.mem_cons_of_mem d (ih h)
    · exact (List.mem_cons.1 h).elim (fun h => h ▸ List.mem_cons_self)
        fun h => List.mem_cons_of_mem d (ih h)

/-- In the normal form are newlines, spaces, and characters of the text, but no tab and no carriage
return. -/
theorem mem_normalize {c : Char} {t : Text} (h : c ∈ normalize t) :
    c = '\n' ∨ c = ' ' ∨ c ∈ t ∧ c ≠ '\t' ∧ c ≠ '\r' := by
  obtain ⟨d, hd, rfl⟩ := List.mem_map.1 h
  obtain ⟨e, he, rfl⟩ := List.mem_map.1 (mem_of_mem_joinLineEnds hd)
  by_cases htab : e = '\t'
  · exact .inr (.inl (by simp [htab]))
  · by_cases hr : e = '\r'
    · exact .inl (by simp [hr])
    · exact .inr (.inr (by simp [htab, hr, he]))

/-! ## Paired carriage returns -/

theorem ReturnsPaired.head? {u : Text} : ∀ {t : Text},
    ReturnsPaired (t ++ '\r' :: u) → u.head? = some '\n'
  | [], h => h.1 rfl
  | _ :: t, h => ReturnsPaired.head? (t := t) h.2

theorem ReturnsPaired.left (h : ReturnsPaired (a ++ b)) (hs : ¬Splits a b) : ReturnsPaired a := by
  induction a with
  | nil => trivial
  | cons c a ih =>
    by_cases hne : a = []
    · subst hne
      exact ⟨fun hc => absurd ⟨by simp [hc], h.1 hc⟩ hs, trivial⟩
    · refine ⟨fun hc => ?_, ih h.2 fun hs' => hs (hs'.of_cons hne)⟩
      exact (head?_append_of_ne_nil hne).symm.trans (h.1 hc)

theorem ReturnsPaired.right (h : ReturnsPaired (a ++ b)) : ReturnsPaired b := by
  induction a with
  | nil => exact h
  | cons c a ih => exact ih h.2

/-- In a text whose carriage returns are paired, all of them go away. -/
theorem joinLineEnds_of_paired (h : ReturnsPaired a) :
    joinLineEnds (expandTabs a) = expandTabs (a.filter (· ≠ '\r')) := by
  induction a with
  | nil => rfl
  | cons c a ih =>
    have htabs : expandTabs (c :: a) = (if c = '\t' then ' ' else c) :: expandTabs a := rfl
    rw [htabs, joinLineEnds, ih h.2]
    by_cases hc : c = '\r'
    · subst hc
      rw [if_pos ⟨rfl, (head?_expandTabs_eq_newline a).2 (h.1 rfl)⟩,
        List.filter_cons_of_neg (by simp)]
    · have hne : (if c = '\t' then ' ' else c) ≠ '\r' := by
        split
        · decide
        · exact hc
      rw [if_neg fun hr => hne hr.1, List.filter_cons_of_pos (by simpa using hc)]
      rfl

theorem normalize_of_paired (h : ReturnsPaired a) :
    normalize a = expandTabs (a.filter (· ≠ '\r')) := by
  rw [normalize, joinLineEnds_of_paired h, replaceReturns]
  refine (List.map_congr_left fun c hc => ?_).trans (List.map_id _)
  obtain ⟨d, hd, rfl⟩ := List.mem_map.1 hc
  have hne : d ≠ '\r' := by simpa using (List.mem_filter.1 hd).2
  by_cases ht : d = '\t'
  · simp [ht]
  · simp [ht, hne]

theorem count_expandTabs (t : Text) : t.expandTabs.count '\n' = t.count '\n' := by
  induction t with
  | nil => rfl
  | cons c t ih =>
    have htabs : expandTabs (c :: t) = (if c = '\t' then ' ' else c) :: expandTabs t := rfl
    rw [htabs, List.count_cons, List.count_cons, ih]
    by_cases hc : c = '\t'
    · simp [hc]
    · rw [if_neg hc]

theorem count_normalize (h : ReturnsPaired a) : (normalize a).count '\n' = a.count '\n' := by
  rw [normalize_of_paired h, count_expandTabs, List.count_filter (by decide)]

theorem lastLineLength_expandTabs (t : Text) :
    t.expandTabs.lastLineLength = t.lastLineLength := by
  have hsame : (fun c => decide (c ≠ '\n')) ∘ (fun c => if c = '\t' then ' ' else c) =
      fun c => decide (c ≠ '\n') := by
    funext c
    by_cases hc : c = '\t' <;> simp [hc]
  rw [lastLineLength, expandTabs, ← List.map_reverse, List.takeWhile_map, List.length_map, hsame]
  rfl

/-- Leaving out what a test for the first characters holds of does not change which ones they
are. -/
theorem takeWhile_filter {p q : Char → Bool} (h : ∀ c, p c = false → q c = true) (t : Text) :
    (t.filter p).takeWhile q = (t.takeWhile q).filter p := by
  induction t with
  | nil => rfl
  | cons c t ih =>
    cases hp : p c with
    | false => simp [hp, h c hp, ih]
    | true => cases hq : q c <;> simp [hp, hq, ih]

/-- The last line has no carriage return if they are paired. -/
theorem return_notMem_lastLine (h : ReturnsPaired a) : '\r' ∉ a.reverse.takeWhile (· ≠ '\n') := by
  intro hm
  obtain ⟨w, v, hw⟩ := List.append_of_mem hm
  have hcut := List.takeWhile_append_dropWhile (p := (· ≠ '\n')) (l := a.reverse)
  rw [hw] at hcut
  generalize a.reverse.dropWhile (· ≠ '\n') = rest at hcut
  have ha : a = (v ++ rest).reverse ++ '\r' :: w.reverse := by
    rw [← List.reverse_reverse a, ← hcut]
    simp
  rw [ha] at h
  have hnl : '\n' ∈ w := List.mem_reverse.1 (List.mem_of_mem_head? (Option.mem_def.2 h.head?))
  have hmem : '\n' ∈ a.reverse.takeWhile (· ≠ '\n') := by
    rw [hw]
    exact List.mem_append_left _ hnl
  have := List.all_eq_true.1 List.all_takeWhile _ hmem
  simp at this

theorem lastLineLength_normalize (h : ReturnsPaired a) :
    (normalize a).lastLineLength = a.lastLineLength := by
  have htest : ∀ c : Char, decide (c ≠ '\r') = false → decide (c ≠ '\n') = true := by
    intro c hc
    obtain rfl : c = '\r' := by simpa using hc
    rfl
  rw [normalize_of_paired h, lastLineLength_expandTabs, lastLineLength, ← List.filter_reverse,
    takeWhile_filter htest, List.filter_eq_self.2]
  · rfl
  · intro c hc
    have hne : c ≠ '\r' := fun he => return_notMem_lastLine h (he ▸ hc)
    simpa using hne

end

end RuleTrace.Text
