/-!
Finite sets as strictly increasing lists, so that two sets are equal exactly when they have the
same elements.
-/
set_option autoImplicit false

namespace FormCalculus

variable {α : Type} {cmp : α → α → Ordering}

/-- Puts an element in its place in an increasing list, unless it is there. -/
def placeElement (cmp : α → α → Ordering) (x : α) : List α → List α
  | [] => [x]
  | y :: rest =>
      match cmp x y with
      | .lt => x :: y :: rest
      | .eq => y :: rest
      | .gt => y :: placeElement cmp x rest

theorem mem_place_element {x y : α} {list : List α} (member : y ∈ placeElement cmp x list) :
    y = x ∨ y ∈ list := by
  induction list with
  | nil => simpa [placeElement] using member
  | cons head rest ih =>
      unfold placeElement at member
      split at member
      · simpa using member
      · exact .inr member
      · rcases List.mem_cons.mp member with same | inside
        · exact .inr (same ▸ List.mem_cons_self)
        · exact (ih inside).imp_right (List.mem_cons_of_mem head)

theorem place_element_increasing [Std.TransCmp cmp] (x : α) {list : List α}
    (increasing : list.Pairwise fun a b => cmp a b = .lt) :
    (placeElement cmp x list).Pairwise fun a b => cmp a b = .lt := by
  induction list with
  | nil => simp [placeElement]
  | cons head rest ih =>
      obtain ⟨above, increasing⟩ := List.pairwise_cons.mp increasing
      unfold placeElement
      split
      · rename_i less
        refine List.pairwise_cons.mpr ⟨?_, List.pairwise_cons.mpr ⟨above, increasing⟩⟩
        intro y member
        rcases List.mem_cons.mp member with same | inside
        · exact same ▸ less
        · exact Std.TransCmp.lt_trans less (above y inside)
      · exact List.pairwise_cons.mpr ⟨above, increasing⟩
      · rename_i greater
        refine List.pairwise_cons.mpr ⟨?_, ih increasing⟩
        intro y member
        rcases mem_place_element member with same | inside
        · exact same ▸ Std.OrientedCmp.gt_iff_lt.mp greater
        · exact above y inside

/-- A finite set of elements ordered by `cmp`. -/
structure OrderedSet (α : Type) (cmp : α → α → Ordering) where
  elements : List α
  increasing : elements.Pairwise fun a b => cmp a b = .lt
deriving DecidableEq

namespace OrderedSet

def empty : OrderedSet α cmp := ⟨[], .nil⟩

instance : EmptyCollection (OrderedSet α cmp) := ⟨empty⟩

instance : Inhabited (OrderedSet α cmp) := ⟨empty⟩

def single (x : α) : OrderedSet α cmp := ⟨[x], by simp⟩

def isEmpty (set : OrderedSet α cmp) : Bool := set.elements.isEmpty

def size (set : OrderedSet α cmp) : Nat := set.elements.length

instance : Membership α (OrderedSet α cmp) := ⟨fun set x => x ∈ set.elements⟩

def contains [BEq α] (set : OrderedSet α cmp) (x : α) : Bool := set.elements.contains x

/-- Whether no element is in both sets. -/
def disjoint [BEq α] (a b : OrderedSet α cmp) : Bool := a.elements.all fun x => !b.contains x

variable [Std.TransCmp cmp]

def insert (set : OrderedSet α cmp) (x : α) : OrderedSet α cmp :=
  ⟨placeElement cmp x set.elements, place_element_increasing x set.increasing⟩

def union (a b : OrderedSet α cmp) : OrderedSet α cmp := b.elements.foldl insert a

def ofList (list : List α) : OrderedSet α cmp := list.foldl insert empty

end OrderedSet

end FormCalculus
