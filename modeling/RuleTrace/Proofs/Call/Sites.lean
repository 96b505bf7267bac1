import RuleTrace.Call.Forest

/-!
# Sites of a forest

A site is a node of a forest with the labels above it and with what is below it. What splicing and
pruning do to a forest is said in terms of the sites of the whole forest.

* `Forest.links_splice`: splicing keeps the sites that are not hidden, in order, and links each to
  the nearest label above it that is not hidden.
* `Forest.preorder_prune`, `Forest.leaves_prune`: pruning keeps the sites that are wanted or have a
  wanted label below them, in order, and its leaves are wanted.
-/

namespace RuleTrace.Forest

variable {α : Type}

/-- A node in its forest: the labels above it, the nearest first, its own, and what is below it. -/
structure Site (α : Type) where
  above : List α
  label : α
  below : Forest α

/-- The sites of a forest in pre-order, under some labels. -/
def sites (above : List α) : Forest α → List (Site α)
  | .nil => []
  | .node a below after => ⟨above, a, below⟩ :: (below.sites (a :: above) ++ after.sites above)

/-- The labels in pre-order, each after the one that it is directly below. -/
def links (top : α) : Forest α → List (α × α)
  | .nil => []
  | .node a below after => (top, a) :: (below.links a ++ after.links top)

/-- The labels with nothing below them. -/
def leaves : Forest α → List α
  | .nil => []
  | .node a below after => (if below.isEmpty then [a] else below.leaves) ++ after.leaves

theorem map_label_sites (f : Forest α) (above : List α) :
    (f.sites above).map (·.label) = f.preorder := by
  induction f generalizing above with
  | nil => rfl
  | node a below after ihb iha => simp [sites, preorder, ihb, iha]

theorem isEmpty_eq_preorder (f : Forest α) : f.isEmpty = f.preorder.isEmpty := by
  cases f <;> rfl

theorem eq_nil_of_preorder {f : Forest α} (h : f.preorder = []) : f = .nil := by
  cases f with
  | nil => rfl
  | node => cases h

theorem preorder_append (f g : Forest α) : (f.append g).preorder = f.preorder ++ g.preorder := by
  induction f with
  | nil => rfl
  | node a below after _ ih => simp [append, preorder, ih]

theorem links_append (top : α) (f g : Forest α) :
    (f.append g).links top = f.links top ++ g.links top := by
  induction f with
  | nil => rfl
  | node a below after _ ih => simp [append, links, ih]

/-! ## Splicing -/

section
variable (hidden : α → Bool)

theorem preorder_splice (f : Forest α) :
    (f.splice hidden).preorder = f.preorder.filter fun a => !hidden a := by
  induction f with
  | nil => rfl
  | node a below after ihb iha =>
    rw [splice]
    cases h : hidden a with
    | true => simp [preorder, preorder_append, ihb, iha, h]
    | false => simp [preorder, ihb, iha, h]

/-- The nearest label above a site that is not hidden, or the top when all of them are. -/
def visibleAbove (top : α) (above : List α) : α :=
  (above.find? fun a => !hidden a).getD top

theorem links_splice_under (top : α) (f : Forest α) (above : List α) :
    (f.splice hidden).links (visibleAbove hidden top above) =
      ((f.sites above).filter fun s => !hidden s.label).map fun s =>
        (visibleAbove hidden top s.above, s.label) := by
  induction f generalizing above with
  | nil => rfl
  | node a below after ihb iha =>
    rw [splice]
    cases h : hidden a with
    | true =>
      have habove : visibleAbove hidden top (a :: above) = visibleAbove hidden top above := by
        simp [visibleAbove, h]
      have ihb := ihb (a :: above)
      rw [habove] at ihb
      simp [sites, links_append, ihb, iha, h]
    | false =>
      have habove : visibleAbove hidden top (a :: above) = a := by
        simp [visibleAbove, h]
      have ihb := ihb (a :: above)
      rw [habove] at ihb
      simp [sites, links, ihb, iha, h]

theorem links_splice (top : α) (f : Forest α) :
    (f.splice hidden).links top =
      ((f.sites []).filter fun s => !hidden s.label).map fun s =>
        (visibleAbove hidden top s.above, s.label) :=
  links_splice_under hidden top f []

end

/-! ## Pruning -/

section
variable (wanted : α → Bool)

theorem isEmpty_prune (f : Forest α) : (f.prune wanted).isEmpty = !f.preorder.any wanted := by
  induction f with
  | nil => rfl
  | node a below after ihb iha =>
    simp only [prune, preorder, List.any_cons, List.any_append]
    split
    · next h =>
      rw [ihb, Bool.and_eq_true, Bool.not_eq_true', Bool.not_eq_true'] at h
      rw [iha, h.1, h.2, Bool.false_or, Bool.false_or]
    · next h =>
      rw [ihb] at h
      cases hw : wanted a <;> cases hb : below.preorder.any wanted <;> simp_all [isEmpty]

theorem preorder_prune (f : Forest α) (above : List α) :
    (f.prune wanted).preorder =
      ((f.sites above).filter fun s => wanted s.label || s.below.preorder.any wanted).map
        (·.label) := by
  induction f generalizing above with
  | nil => rfl
  | node a below after ihb iha =>
    have hempty := isEmpty_prune wanted below
    simp only [prune, sites, List.filter_cons, List.filter_append]
    cases hw : wanted a with
    | true => simp [preorder, ← ihb, ← iha]
    | false =>
      cases hb : below.preorder.any wanted with
      | true => simp [preorder, hempty, hb, ← ihb, ← iha]
      | false =>
        -- nothing is wanted below the node, so the filter keeps none of the sites there
        rw [hb, isEmpty_eq_preorder, Bool.not_false, List.isEmpty_iff] at hempty
        simp [isEmpty_eq_preorder, hempty, ← ihb, ← iha]

theorem leaves_prune {f : Forest α} {a : α} (h : a ∈ (f.prune wanted).leaves) :
    wanted a = true := by
  induction f with
  | nil => cases h
  | node b below after ihb iha =>
    simp only [prune] at h
    split at h
    · exact iha h
    · next hkeep =>
      rw [leaves, List.mem_append] at h
      rcases h with h | h
      · split at h
        · next hempty =>
          rw [List.mem_singleton.1 h]
          simpa [hempty] using hkeep
        · exact ihb h
      · exact iha h

end

end RuleTrace.Forest
