import FormCalculus.Proofs.DenotingFormulas

/-!
Compound operators written out over fresh indices: no index of an operand is captured, and only the
fresh ones are summed over.
-/
set_option autoImplicit false

namespace FormCalculus.Denotes

open Expr

variable {K : Type} [Field K] {M : Reading K} (rigid : M.Rigid) {a b r : Expr} {sa sb : Shape}
  {A B : Index → Nat → Prop} {f g : Meaning K} {supply after : Supply}

include rigid

theorem lower_transposed {m n : Nat} (tensor : Denotes M a [m, n] A f) (below : Below A supply)
    (run : a.lowerTransposed supply = .ok (r, after)) :
    Denotes M r [n, m] A fun s ρ => matrixOf fun i j => f s ρ [j, i] := by
  simp only [lowerTransposed, Fresh.bind_ok, Fresh.lift_ok, Fresh.new_index_ok] at run
  obtain ⟨_, _, ⟨rfl, rfl⟩, _, _, ⟨rfl, rfl⟩, component, _, ⟨found, _⟩, last, _⟩ := run
  have fresh := fresh_pair below
  obtain ⟨_, _, entry⟩ := tensor.index_by fresh found
  have entry := entry.weaken fun k d known => known.imp_right swap_zip.mpr
  refine (over_fresh rigid fresh.swap entry rfl last).congr fun s ρ c length => ?_
  obtain ⟨p, q, rfl⟩ := List.length_eq_two.mp length
  obtain ⟨first, second⟩ := bind_pair ρ fresh.swap.distinct p q
  rw [List.map_cons, List.map_cons, List.map_nil, first, second]
  exact fresh_steady rigid fresh.swap tensor rfl

theorem lower_trace {n : Nat} (tensor : Denotes M a [n, n] A f) (below : Below A supply)
    (run : a.lowerTrace supply = .ok (r, after)) :
    Denotes M r [] A fun s ρ _ => ∑ k ∈ Finset.range n, f s ρ [k, k] := by
  simp only [lowerTrace, Fresh.bind_ok, Fresh.lift_ok, Fresh.new_index_ok] at run
  obtain ⟨_, _, ⟨rfl, rfl⟩, found, _⟩ := run
  exact tensor.diagonal rigid (fun d known => Nat.lt_irrefl _ (below _ d known)) found

section Products

variable [Folding] (exact : M.Exact)

include exact

theorem lower_skew {n : Nat} (tensor : Denotes M a [n, n] A f) (below : Below A supply)
    (run : a.lowerSkew supply = .ok (r, after)) :
    Denotes M r [n, n] A fun s ρ => matrixOf fun i j => (f s ρ [i, j] - f s ρ [j, i]) / 2 := by
  simp only [lowerSkew, Fresh.bind_ok, Fresh.lift_ok, Fresh.new_index_ok] at run
  obtain ⟨_, _, ⟨rfl, rfl⟩, _, _, ⟨rfl, rfl⟩, upper, _, ⟨first, _⟩, lower, _, ⟨second, _⟩, difference, _,
    ⟨sub, _⟩, half, _, ⟨quotient, _⟩, last, _⟩ := run
  have fresh := fresh_pair below
  obtain ⟨_, _, upper⟩ := tensor.index_by fresh first
  obtain ⟨_, _, lower⟩ := tensor.index_by fresh.swap second
  have lower := lower.weaken fun k d known => known.imp_right swap_zip.mp
  have half := ((upper.scalar_sub exact lower sub).scalar_quotient exact (.int 2) quotient).weaken
    fun k d known => known.resolve_right id
  refine (over_fresh rigid fresh half rfl last).congr fun s ρ c length => ?_
  obtain ⟨p, q, rfl⟩ := List.length_eq_two.mp length
  obtain ⟨first, second⟩ := bind_pair ρ fresh.distinct p q
  have two : (((2 : Int64).toInt : Int) : K) = 2 := by
    show ((2 : Int) : K) = 2
    exact Int.cast_ofNat 2
  simp only [List.map_cons, List.map_nil, first, second, two]
  rw [fresh_steady (k := [p, q]) rigid fresh tensor rfl,
    fresh_steady (k := [q, p]) rigid fresh tensor rfl]
  rfl

theorem lower_inner (left : Denotes M a sa A f) (right : Denotes M b sa B g)
    (apart : ∀ i d d', A i d → ¬ B i d') (belowLeft : Below A supply) (belowRight : Below B supply)
    (run : a.lowerInner b supply = .ok (r, after)) :
    Denotes M r [] (fun i d => A i d ∨ B i d) fun s ρ _ => sumOver sa fun k => f s ρ k * g s ρ k := by
  simp only [lowerInner, Fresh.bind_ok, Fresh.lift_ok, Fresh.new_indices_ok] at run
  obtain ⟨_, _, ⟨rfl, rfl⟩, x, _, ⟨first, _⟩, y, _, ⟨second, _⟩, product, _⟩ := run
  have freshLeft : FreshFor A _ := fresh_next belowLeft a.rank
  have freshRight : FreshFor B _ := fresh_next belowRight a.rank
  obtain ⟨length, knownLeft, x_denotes⟩ := left.index_by freshLeft first
  obtain ⟨_, knownRight, y_denotes⟩ := right.index_by freshRight second
  generalize indices_same : Fresh.nextIndices supply a.rank = indices at *
  have firsts : (indices.zip sa).map Prod.fst = indices := List.map_fst_zip length.le
  have seconds : (indices.zip sa).map Prod.snd = sa := List.map_snd_zip length.ge
  have total := x_denotes.contracted_product exact y_denotes (indices.zip sa)
    (indices_same ▸ Fresh.next_indices_increasing supply (by simpa [← indices_same] using length))
    (fun i d pair => ⟨knownLeft i d pair, FreeIndices.contains_iff.mpr ⟨d, knownRight i d pair⟩⟩)
    (fun i d d' => ?_) (fun i d d' pair => ?_) product
  · rw [firsts, seconds] at total
    refine (total.weaken fun i d known => ?_).congr fun s ρ c _ => sum_over_congr fun k same => ?_
    · refine known.2.imp (fun known' => known'.resolve_right fun pair => ?_)
        (fun known' => known'.resolve_right fun pair => ?_)
      · exact known.1 (List.of_mem_zip pair).1
      · exact known.1 (List.of_mem_zip pair).1
    · rw [Assignment.bind_all_zip freshLeft.distinct (length.trans same.symm),
        fresh_steady rigid freshLeft left same, fresh_steady rigid freshRight right same]
  · rintro (known | pair) (known' | pair')
    · exact absurd known' (apart i d d' known)
    · exact absurd known (freshLeft.absent i d (List.of_mem_zip pair').1)
    · exact pair
    · exact pair
  · rintro ((known | pair') | (known | pair'))
    · exact absurd known (freshLeft.absent i d' (List.of_mem_zip pair).1)
    · exact zip_unique freshLeft.distinct pair' pair
    · exact absurd known (freshRight.absent i d' (List.of_mem_zip pair).1)
    · exact zip_unique freshLeft.distinct pair' pair

theorem lower_outer (left : Denotes M a sa A f) (right : Denotes M b sb B g)
    (apart : ∀ i d d', A i d → ¬ B i d') (belowLeft : Below A supply) (belowRight : Below B supply)
    (run : a.lowerOuter b supply = .ok (r, after)) :
    Denotes M r (sa ++ sb) (fun i d => A i d ∨ B i d) fun s ρ c =>
      f s ρ (c.take sa.length) * g s ρ (c.drop sa.length) := by
  simp only [lowerOuter, Fresh.bind_ok, Fresh.lift_ok, Fresh.new_indices_ok] at run
  obtain ⟨_, _, ⟨rfl, rfl⟩, _, _, ⟨rfl, rfl⟩, x, _, ⟨first, _⟩, y, _, ⟨second, _⟩, product, _,
    ⟨times, _⟩, last, _⟩ := run
  have below : Below (fun i d => A i d ∨ B i d) supply :=
    fun i d known => known.elim (belowLeft i d) (belowRight i d)
  have fresh := fresh_next below (a.rank + b.rank)
  rw [Fresh.next_indices_add] at fresh
  generalize Fresh.nextIndices supply a.rank = rows, Fresh.nextIndices _ b.rank = columns at *
  have freshLeft := fresh.sublist (List.sublist_append_left rows columns)
  have freshRight := fresh.sublist (List.sublist_append_right rows columns)
  obtain ⟨lengthLeft, _, x_denotes⟩ := left.index_by (freshLeft.mono fun i d => .inl) first
  obtain ⟨lengthRight, _, y_denotes⟩ := right.index_by (freshRight.mono fun i d => .inr) second
  have other {i : Index} (member : i ∈ rows) : i ∉ columns := fun member' =>
    (List.nodup_append.mp fresh.distinct).2.2 i member i member' rfl
  have product := x_denotes.product_apart exact y_denotes (fun i d d' => ?_) times
  · have scalar := product.weaken (B := fun i d => (A i d ∨ B i d) ∨
      (i, d) ∈ (rows ++ columns).zip (sa ++ sb)) fun i d known => ?_
    · refine (over_fresh rigid fresh scalar (by simp [lengthLeft, lengthRight]) last).congr
        fun s ρ c same => ?_
      have positions := Assignment.bind_all_zip (ρ := ρ) (c := c) fresh.distinct
        (by simp [same, lengthLeft, lengthRight])
      obtain ⟨top, bottom⟩ := split_positions positions
      rw [top, bottom, lengthLeft]
      rw [fresh_steady rigid (fresh.mono fun i d => .inl) left (by simp [same]),
        fresh_steady rigid (fresh.mono fun i d => .inr) right (by simp [same])]
    · rw [List.zip_append lengthLeft, List.mem_append]
      rcases known with (known | pair) | (known | pair)
      · exact .inl (.inl known)
      · exact .inr (.inl pair)
      · exact .inl (.inr known)
      · exact .inr (.inr pair)
  · rintro (known | pair) (known' | pair')
    · exact apart i d d' known known'
    · exact freshRight.absent i d (List.of_mem_zip pair').1 (.inl known)
    · exact freshLeft.absent i d' (List.of_mem_zip pair).1 (.inr known')
    · exact other (List.of_mem_zip pair).1 (List.of_mem_zip pair').1

/-- A product of components along two lists of fresh indices, summed over one that both have. -/
theorem contract_along {dim : Nat} {rows columns : List Index} {inner : Index} {x y e : Expr}
    (left : Denotes M a sa A f) (right : Denotes M b (dim :: sb) B g) (axis : sa.getLastD 0 = dim)
    (apart : ∀ i d d', A i d → ¬ B i d')
    (fresh : FreshFor (fun i d => A i d ∨ B i d) (rows ++ columns ++ [inner]))
    (first : a.indexBy (rows ++ [inner]) = .ok x) (second : b.indexBy (inner :: columns) = .ok y)
    (times : x.contractedProduct y = .ok e) (last : e.asTensor (rows ++ columns) = .ok r) :
    Denotes M r (sa.dropLast ++ sb) (fun i d => A i d ∨ B i d) fun s ρ c =>
      ∑ k ∈ Finset.range dim,
        f s ρ (c.take (sa.length - 1) ++ [k]) * g s ρ (k :: c.drop (sa.length - 1)) := by
  have outside : inner ∉ rows ++ columns := fun member =>
    (List.nodup_append.mp fresh.distinct).2.2 inner member inner (by simp) rfl
  have notRow : inner ∉ rows := fun member => outside (List.mem_append_left _ member)
  have notColumn : inner ∉ columns := fun member => outside (List.mem_append_right _ member)
  have both := (List.nodup_append.mp fresh.distinct).1
  have other {i : Index} (member : i ∈ rows) : i ∉ columns := fun member' =>
    (List.nodup_append.mp both).2.2 i member i member' rfl
  have freshLeft : FreshFor A (rows ++ [inner]) :=
    (fresh.sublist ((List.sublist_append_left rows columns).append (.refl _))).mono fun i d => .inl
  have freshRight : FreshFor B (inner :: columns) := by
    refine ⟨List.nodup_cons.mpr ⟨notColumn, (List.nodup_append.mp both).2.1⟩, fun i d member known => ?_⟩
    refine fresh.absent i d ?_ (.inr known)
    rcases List.mem_cons.mp member with rfl | member
    · exact List.mem_append_right _ List.mem_cons_self
    · exact List.mem_append_left _ (List.mem_append_right _ member)
  obtain ⟨lengthLeft, knownLeft, x_denotes⟩ := left.index_by freshLeft first
  obtain ⟨lengthRight, knownRight, y_denotes⟩ := right.index_by freshRight second
  obtain ⟨front, rfl⟩ : ∃ front, sa = front ++ [dim] := by
    cases sa using List.reverseRecOn with
    | nil => simp at lengthLeft
    | append_singleton front final => exact ⟨front, by simpa using axis⟩
  have lengthLeft : rows.length = front.length := by simpa using lengthLeft
  have lengthRight : columns.length = sb.length := by simpa using lengthRight
  simp only [List.dropLast_concat, List.length_append, List.length_singleton, Nat.add_sub_cancel]
  simp only [List.zip_append lengthLeft, List.zip_cons_cons, List.zip_nil_left, List.mem_append,
    List.mem_cons, List.not_mem_nil, or_false, Prod.mk.injEq] at knownLeft knownRight x_denotes y_denotes
  have product := x_denotes.contracted_product exact y_denotes [(inner, dim)]
    (List.pairwise_singleton _ _) (fun i d pair => ?_) (fun i d d' => ?_) (fun i d d' pair => ?_) times
  · have freshBoth := fresh.sublist (List.sublist_append_left (rows ++ columns) [inner])
    have scalar := product.weaken (B := fun i d => (A i d ∨ B i d) ∨
      (i, d) ∈ (rows ++ columns).zip (front ++ sb)) fun i d known => ?_
    · refine (over_fresh rigid freshBoth scalar (by simp [lengthLeft, lengthRight]) last).congr
        fun s ρ c same => Finset.sum_congr rfl fun k _ => ?_
      have positions := Assignment.bind_all_zip (ρ := ρ) (c := c) freshBoth.distinct
        (by simp [same, lengthLeft, lengthRight])
      obtain ⟨top, bottom⟩ := split_positions positions
      generalize bound : ρ.bindAll ((rows ++ columns).zip c) = ρ' at top bottom
      have unmoved (i : Index) (d : Nat) (known : A i d ∨ B i d) : ρ'.bind inner k i = ρ i := by
        have elsewhere : i ∉ rows ++ columns := fun member => freshBoth.absent i d member known
        have notInner : i ≠ inner := fun same =>
          fresh.absent i d (List.mem_append_right _ (same ▸ List.mem_cons_self)) known
        rw [Assignment.bind_other notInner, ← bound, Assignment.bind_all_zip_other elsewhere]
      have others {indices : List Index} (absent : inner ∉ indices) :
          indices.map (ρ'.bind inner k) = indices.map ρ' :=
        List.map_congr_left fun i member => Assignment.bind_other (by rintro rfl; exact absent member) k
      show f s (ρ'.bind inner k) ((rows ++ [inner]).map (ρ'.bind inner k)) *
        g s (ρ'.bind inner k) ((inner :: columns).map (ρ'.bind inner k)) = _
      rw [List.map_append, List.map_cons, List.map_nil, List.map_cons, others notRow, others notColumn,
        Assignment.bind_same, top, bottom, lengthLeft,
        left.steady rigid (fun i d known => unmoved i d (.inl known)) (by simp [same]),
        right.steady rigid (fun i d known => unmoved i d (.inr known)) (by simp [same])]
    · rw [List.zip_append lengthLeft, List.mem_append]
      obtain ⟨notInner, known⟩ := known
      have notInner : i ≠ inner := by simpa using notInner
      rcases known with (known | pair | ⟨same, _⟩) | (known | ⟨same, _⟩ | pair)
      · exact .inl (.inl known)
      · exact .inr (.inl pair)
      · exact absurd same notInner
      · exact .inl (.inr known)
      · exact absurd same notInner
      · exact .inr (.inr pair)
  · obtain ⟨rfl, rfl⟩ : i = inner ∧ d = dim := by simpa using pair
    exact ⟨knownLeft _ _ (.inr ⟨rfl, rfl⟩),
      FreeIndices.contains_iff.mpr ⟨_, knownRight _ _ (.inl ⟨rfl, rfl⟩)⟩⟩
  · have inside (same : i = inner ∧ d = dim) : (i, d) ∈ [(inner, dim)] := by simp [same]
    rintro (known | pair | same) (known' | same' | pair')
    · exact absurd known' (apart i d d' known)
    · exact absurd known (freshLeft.absent i d (by simp [same'.1]))
    · exact absurd (.inl known) (fresh.absent i d (by simp [(List.of_mem_zip pair').1]))
    · exact absurd (.inr known') (fresh.absent i d' (by simp [(List.of_mem_zip pair).1]))
    · exact absurd (List.of_mem_zip pair).1 (same'.1 ▸ notRow)
    · exact absurd (List.of_mem_zip pair').1 (other (List.of_mem_zip pair).1)
    · exact inside same
    · exact inside same
    · exact inside same
  · obtain ⟨rfl, rfl⟩ : i = inner ∧ d = dim := by simpa using pair
    rintro ((known | pair' | ⟨_, same⟩) | (known | ⟨_, same⟩ | pair'))
    · exact absurd known (freshLeft.absent _ d' (by simp))
    · exact absurd (List.of_mem_zip pair').1 notRow
    · exact same
    · exact absurd known (freshRight.absent _ d' (by simp))
    · exact same
    · exact absurd (List.of_mem_zip pair').1 notColumn

theorem contract {dim : Nat} (left : Denotes M a sa A f) (right : Denotes M b (dim :: sb) B g)
    (apart : ∀ i d d', A i d → ¬ B i d') (belowLeft : Below A supply) (belowRight : Below B supply)
    (run : a.contract b supply = .ok (r, after)) :
    Denotes M r (sa.dropLast ++ sb) (fun i d => A i d ∨ B i d) fun s ρ c =>
      ∑ k ∈ Finset.range dim,
        f s ρ (c.take (sa.length - 1) ++ [k]) * g s ρ (k :: c.drop (sa.length - 1)) := by
  unfold Expr.contract at run
  simp only [left.shaped, right.shaped] at run
  split at run
  · simp at run
  rename_i axis
  simp only [Fresh.bind_ok, Fresh.lift_ok, Fresh.new_indices_ok, Fresh.new_index_ok] at run
  obtain ⟨_, _, ⟨rfl, rfl⟩, _, _, ⟨rfl, rfl⟩, _, _, ⟨rfl, rfl⟩, x, _, ⟨first, _⟩, y, _, ⟨second, _⟩,
    product, _, ⟨times, _⟩, last, _⟩ := run
  have below : Below (fun i d => A i d ∨ B i d) supply :=
    fun i d known => known.elim (belowLeft i d) (belowRight i d)
  have fresh := fresh_next below (a.rank - 1 + (b.rank - 1) + 1)
  rw [Fresh.next_indices_add, Fresh.next_indices_add] at fresh
  refine contract_along rigid exact left right (not_not.mp axis) apart ?_ first second times last
  simpa [Fresh.nextIndices, Nat.add_assoc] using fresh

end Products

end FormCalculus.Denotes
