import FormCalculus.Proofs.DenotingLowering
import FormCalculus.Proofs.ExpansionValue
import FormCalculus.Proofs.LoweringKinds

/-!
Lowering keeps values: every component of what an expression is lowered to has the value of that
component of the expression, the compound operators in it read as in linear algebra.
-/
set_option autoImplicit false

namespace FormCalculus

open Expr Denotes

variable {K : Type} [Field K]

/-- The indices of a set with their dimensions. -/
def FreeIndices.Has (set : FreeIndices) : Index → Nat → Prop := fun i d => set.dim? i = some d

/-- The expression has the shape and the values of `e`, and nothing free that is not free in `e`. A
terminal is rendered by itself. -/
structure Renders (M : Reading K) (e v : Expr) : Prop where
  denotes : Denotes M v e.shape e.free.Has (M.value e)
  terminal : ∀ data, e = .terminal data → v = e

variable {M : Reading K}

theorem renders_self {e : Expr} (tame : Tame e) : Renders M e e := ⟨.self tame, fun _ _ => rfl⟩

theorem Renders.items {items : List IndexItem} {v : Expr} (renders : Renders M (multiIndex items) v) :
    v = multiIndex items := renders.terminal _ rfl

/-- Kinds of derivatives, which a field does not read. -/
def Kind.isDerivative (kind : Kind) : Bool :=
  kind ∈ [.grad, .div, .curl, .rot, .spatialDerivative, .variableDerivative]

theorem Renders.denotes_as {e v : Expr} {shape : Shape} {free : FreeIndices}
    (renders : Renders M e v) (shaped : e.shape = shape) (inside : e.free ⊆ free) :
    Denotes M v shape free.Has (M.value e) :=
  shaped ▸ renders.denotes.weaken inside

theorem renders_one {a : Expr} {values : List Expr} (renders : List.Forall₂ (Renders M) [a] values) :
    ∃ a', values = [a'] ∧ Renders M a a' := by
  obtain _ | ⟨first, _ | _⟩ := renders
  exact ⟨_, rfl, first⟩

theorem renders_two {a b : Expr} {values : List Expr}
    (renders : List.Forall₂ (Renders M) [a, b] values) :
    ∃ a' b', values = [a', b'] ∧ Renders M a a' ∧ Renders M b b' := by
  obtain _ | ⟨first, rest⟩ := renders
  obtain ⟨b', rfl, second⟩ := renders_one rest
  exact ⟨_, b', rfl, first, second⟩

theorem renders_partner {operands values : List Expr} {v : Expr}
    (renders : List.Forall₂ (Renders M) operands values) (member : v ∈ values) :
    ∃ o ∈ operands, Renders M o v := by
  obtain ⟨o, pair⟩ := partner_left renders.length_eq member
  exact ⟨o, (List.of_mem_zip pair).1, List.forall₂_zip renders pair⟩

/-- Determinants are those of square matrices with a row, and inverses those of square matrices. -/
structure Squares (e : Expr) : Prop where
  determinant : ∀ a shape free, Within (.node .determinant [a] shape free) e →
    ∃ n, n ≠ 0 ∧ a.shape = [n, n]
  inverse : ∀ a shape free, Within (.node .inverse [a] shape free) e → ∃ n, a.shape = [n, n]

/-- The fractions that lowering writes into inverses and deviatoric parts are read as they are
written. -/
structure ReadsFractions (M : Reading K) (e : Expr) : Prop where
  one : ∀ a shape free, Within (.node .inverse [a] shape free) e → ∀ s ρ c, M.value one s ρ c = 1
  shares : ∀ a shape free, Within (.node .deviatoric [a] shape free) e → ReadsShares M a.rows

/-- Every free index in it is one that the supply has handed out. -/
def Drawn (e : Expr) (supply : Supply) : Prop := ∀ x, Within x e → Below x.free.Has supply

theorem apart_has {a b : Expr} (apart : Apart a b) (i : Index) (d d' : Nat)
    (known : a.free.Has i d) : ¬ b.free.Has i d' := fun known' =>
  apart i (FreeIndices.contains_iff.mpr ⟨d, known⟩) (FreeIndices.contains_iff.mpr ⟨d', known'⟩)

theorem rows_of {a : Expr} {m n : Nat} (shape : a.shape = [m, n]) : a.rows = m := by
  rw [Expr.rows, shape]
  rfl

section Rules

variable [Folding] (rigid : M.Rigid) (exact : M.Exact) {op : Operator} {operands values : List Expr}
  {shape : Shape} {free : FreeIndices} {v x : Expr} {supply after : Supply}

omit [Folding] in
theorem list_tensor_denotes (same : ∀ e ∈ operands, e.shape = shape ∧ e.free = free)
    (renders : List.Forall₂ (Renders M) operands values) (run : listTensor values = .ok v) :
    Denotes M v (operands.length :: shape) free.Has
      (Operator.denote M .listTensor operands (operands.map M.value)) := by
  have each (k : Nat) (e : Expr) (found : values[k]? = some e) :
      Denotes M e shape free.Has fun s ρ c => (operands[k]?.map fun o => M.value o s ρ c).getD 0 := by
    obtain ⟨small, rfl⟩ := List.getElem?_eq_some_iff.mp found
    have small' : k < operands.length := renders.length_eq ▸ small
    obtain ⟨shaped, rfl⟩ := same _ (List.getElem_mem small')
    rw [List.getElem?_eq_getElem small']
    exact (renders.get small' small).denotes_as shaped (FreeIndices.subset_refl _)
  have whole := Denotes.list_tensor each run
  rw [← renders.length_eq] at whole
  refine whole.congr fun s ρ c length => ?_
  cases c with
  | nil => cases length
  | cons position rest =>
      simp only [Represents.stackOf, Operator.denote, List.getElem?_map, Option.map_map, Function.comp_def]
      by_cases inside : position < operands.length
      · rw [if_pos inside]
      · rw [if_neg inside, List.getElem?_eq_none (Nat.not_lt.mp inside)]
        rfl

omit [Folding] in
theorem conditional_denotes {test a b test' a' b' : Expr}
    (types : Operator.Types .conditional [test, a, b] shape free) (first : Renders M test test')
    (second : Renders M a a') (third : Renders M b b') (run : conditional test' a' b' = .ok v) :
    Denotes M v shape free.Has
      (Operator.denote M .conditional [test, a, b] [M.value test, M.value a, M.value b]) := by
  obtain ⟨both, types', rfl⟩ := conditional_cases run
  have whole : Tame (.node .conditional [test', a', b'] a'.shape both) :=
    tame_node types' (by simpa using ⟨first.denotes.tame, second.denotes.tame, third.denotes.tame⟩) nofun
  cases types with
  | conditional condition sameShape sameFree union =>
      cases types' with
      | conditional condition' _ _ union' =>
          have scalar : test.shape = [] :=
            first.denotes.shaped.symm.trans (condition_scalar first.denotes.tame.typed condition')
          refine ⟨whole, second.denotes.shaped, fun i d found => ?_, fun s ρ c length => ?_⟩
          · exact (union i d).mpr (((union' i d).mp found).imp (first.denotes.free i d)
              (second.denotes.free i d))
          · have tested : M.value test' s ρ [] = M.value test s ρ [] := 
              first.denotes.value s ρ [] (by rw [scalar])
            show (if M.holds _ then _ else _) = if M.holds _ then _ else _
            rw [tested, second.denotes.value s ρ c length, third.denotes.value s ρ c (sameShape ▸ length)]

omit [Folding] in
theorem condition_denotes {op : Comparison}
    (types : Operator.Types (.condition op) operands [] free)
    (renders : List.Forall₂ (Renders M) operands values) (run : condition op values = .ok v) :
    Denotes M v [] free.Has (Operator.denote M (.condition op) operands (operands.map M.value)) := by
  obtain ⟨free', types', rfl⟩ := condition_cases run
  have tame (o' : Expr) (member : o' ∈ values) : Tame o' := by
    obtain ⟨o, _, renders⟩ := renders_partner renders member
    exact renders.denotes.tame
  have whole : Tame (.node (.condition op) values [] free') := tame_node types' tame nofun
  cases types with
  | condition _ checks dims =>
      cases types' with
      | condition _ _ dims' =>
          refine ⟨whole, rfl, fun i d found => ?_, fun s ρ c length => ?_⟩
          · obtain ⟨o', member, found⟩ := (dims' i d).mp found
            obtain ⟨o, inside, renders⟩ := renders_partner renders member
            exact (dims i d).mpr ⟨o, inside, renders.denotes.free i d found⟩
          · rw [Reading.value_node]
            show M.comparison op ((values.map M.value).map _) = M.comparison op ((operands.map M.value).map _)
            rw [List.map_map, List.map_map]
            refine congrArg _ (map_eq_of_pairs renders.length_eq fun o o' pair => ?_).symm
            have scalar := (checks o (List.of_mem_zip pair).1).1
            exact ((List.forall₂_zip renders pair).denotes.value s ρ c (by rw [scalar, length])).symm

include rigid exact

/-- What a simple operator makes of the new operands has the value of the node over the old ones. -/
theorem assemble_denotes (types : op.Types operands shape free)
    (tame : Tame (.node op operands shape free)) (simple : op.kind.isCompound = false)
    (other : op.kind.isDerivative = false) (renders : List.Forall₂ (Renders M) operands values)
    (run : op.assemble values = .ok v) :
    Denotes M v shape free.Has (M.value (.node op operands shape free)) := by
  rw [Reading.value_node]
  cases types with
  | sum shape free =>
      obtain ⟨a', b', rfl, first, second⟩ := renders_two renders
      exact first.denotes.add exact (second.denotes_as shape.symm (free ▸ FreeIndices.subset_refl _)) run
  | product scalar scalar' union =>
      obtain ⟨a', b', rfl, first, second⟩ := renders_two renders
      have left := first.denotes_as scalar union.left_subset
      have right := second.denotes_as scalar' union.right_subset
      exact (left.scalar_product exact right run).weaken fun i d known => known.elim id id
  | division scalar scalar' union =>
      obtain ⟨a', b', rfl, first, second⟩ := renders_two renders
      have left := first.denotes_as scalar union.left_subset
      have right := second.denotes_as scalar' union.right_subset
      exact (left.scalar_quotient exact right run).weaken fun i d known => known.elim id id
  | power scalar scalar' _ =>
      obtain ⟨a', b', rfl, first, second⟩ := renders_two renders
      exact (scalar ▸ first.denotes).pow exact (scalar' ▸ second.denotes) run
  | sqrt scalar =>
      obtain ⟨a', rfl, first⟩ := renders_one renders
      exact (scalar ▸ first.denotes).sqrt exact run
  | @indexed a items _ some subscribed =>
      obtain ⟨a', _, rfl, first, second⟩ := renders_two renders
      obtain rfl := second.items
      have fair := tame.fair _ _ _ _ (.refl _)
      obtain ⟨_, entry⟩ := first.denotes.subscript (fun i d inside known =>
        fair i inside (FreeIndices.contains_iff.mpr ⟨d, known⟩)) run
      exact entry.weaken fun i d known => (subscribed.dims i d).mpr known
  | @indexSum a index scalar known =>
      obtain ⟨a', _, rfl, first, second⟩ := renders_two renders
      obtain rfl := second.items
      have dims (d : Nat) (found : a.free.Has index d) : d = (a.free.dim? index).getD 0 := by
        rw [show a.free.dim? index = some d from found, Option.getD_some]
      have total := (scalar ▸ first.denotes).index_sum dims run
      exact total.weaken fun i d kept => (FreeIndices.erase_dim ..).mpr kept
  | @componentTensor a indices _ _ scalar some binds =>
      obtain ⟨a', _, rfl, first, second⟩ := renders_two renders
      obtain rfl := second.items
      have made : a'.asTensor indices = .ok v := by
        have run := run
        simp only [Operator.assemble, expect_indices_free] at run
        exact run
      have tensor := (scalar ▸ first.denotes).as_tensor rigid binds.length
        (fun i d d' pair known => Option.some.inj ((binds.found i d pair).symm.trans known)) made
      refine (tensor.weaken fun i d kept => (binds.dims i d).mpr kept).congr fun s ρ c length => ?_
      show _ = if c.length = (multiIndex (indices.map .free)).boundBy.length then _ else _
      rw [Reading.bound_by_indices, if_pos (length.trans binds.length.symm)]
  | listTensor some same => exact list_tensor_denotes same renders run
  | @conditional test a b free condition sameShape sameFree union =>
      obtain _ | ⟨first, rest⟩ := renders
      obtain ⟨a', b', rfl, second, third⟩ := renders_two rest
      exact conditional_denotes (.conditional condition sameShape sameFree union) first second third run
  | condition arity checks dims =>
      exact condition_denotes (.condition arity checks dims) renders run
  | @restricted a side =>
      obtain ⟨a', rfl, first⟩ := renders_one renders
      cases run
      have whole : Tame (a'.restricted side) :=
        tame_node .restricted (List.forall_mem_singleton.mpr first.denotes.tame) (by simp)
      exact ⟨whole, first.denotes.shaped, first.denotes.free, fun s ρ c length =>
        first.denotes.value (some side) ρ c length⟩
  | grad | spatialDerivative | variableDerivative => cases other
  | _ => cases simple

/-- What a compound operator is lowered to has the value of the node. -/
theorem lowered_denotes {e : Expr} (types : op.Types operands shape free)
    (inside : Within (.node op operands shape free) e) (squares : Squares e)
    (fractions : ReadsFractions M e) (below : ∀ o ∈ operands, Below o.free.Has supply)
    (other : op.kind.isDerivative = false) (renders : List.Forall₂ (Renders M) operands values)
    (lowered : Lowering.Lowered supply after v op values) :
    Denotes M v shape free.Has (M.value (.node op operands shape free)) := by
  rw [Reading.value_node]
  cases types with
  | @transposed a m n matrix =>
      obtain _ | ⟨first, _ | _⟩ := renders
      cases lowered with
      | transposed run =>
          exact lower_transposed rigid (matrix ▸ first.denotes) (below a List.mem_cons_self) run
  | @trace a n matrix =>
      obtain _ | ⟨first, _ | _⟩ := renders
      cases lowered with
      | trace run =>
          refine (lower_trace rigid (matrix ▸ first.denotes) (below a List.mem_cons_self) run).congr
            fun s ρ c _ => ?_
          rw [← rows_of matrix]
          rfl
  | @skew a n matrix =>
      obtain _ | ⟨first, _ | _⟩ := renders
      cases lowered with
      | skew run =>
          exact lower_skew rigid exact (matrix ▸ first.denotes) (below a List.mem_cons_self) run
  | @inner a b _ same apart union =>
      obtain _ | ⟨first, _ | ⟨second, _ | _⟩⟩ := renders
      cases lowered with
      | inner run =>
          exact (lower_inner rigid exact first.denotes (same ▸ second.denotes) (apart_has apart)
            (below a (by simp)) (below b (by simp)) run).weaken fun i d => (union i d).mpr
  | @outer a b _ apart union =>
      obtain _ | ⟨first, _ | ⟨second, _ | _⟩⟩ := renders
      cases lowered with
      | outer run =>
          exact (lower_outer rigid exact first.denotes second.denotes (apart_has apart)
            (below a (by simp)) (below b (by simp)) run).weaken fun i d => (union i d).mpr
  | @dot a b _ _ apart union =>
      obtain _ | ⟨first, _ | ⟨second, _ | _⟩⟩ := renders
      cases lowered with
      | dot run =>
          cases shape : b.shape with
          | nil => simp [Expr.contract, second.denotes.shaped, shape] at run
          | cons dim rest =>
              have product := contract rigid exact first.denotes (shape ▸ second.denotes)
                (apart_has apart) (below a (by simp)) (below b (by simp)) run
              refine (product.weaken fun i d => (union i d).mpr).congr fun s ρ c _ => ?_
              show _ = ∑ k ∈ Finset.range b.rows, _
              rw [Expr.rows, shape]
              rfl
  | @cross a b _ left right apart union =>
      obtain _ | ⟨first, _ | ⟨second, _ | _⟩⟩ := renders
      cases lowered with
      | cross run =>
          exact (cross_formula exact (left ▸ first.denotes) (right ▸ second.denotes) run).weaken nofun
  | @determinant a m n matrix =>
      obtain _ | ⟨first, _ | _⟩ := renders
      obtain ⟨k, rows, square⟩ := squares.determinant a _ _ inside
      cases lowered with
      | determinant run =>
          refine ((determinant_formula exact (square ▸ first.denotes) rows run).weaken nofun).congr
            fun s ρ c _ => ?_
          rw [← rows_of square]
          rfl
  | @inverse a m n matrix =>
      obtain _ | ⟨first, _ | _⟩ := renders
      obtain ⟨k, square⟩ := squares.inverse a _ _ inside
      obtain ⟨rfl, rfl⟩ : m = k ∧ n = k := by simpa [matrix] using square
      cases lowered with
      | inverse run =>
          have one := fractions.one a _ _ inside
          refine ((inverse_formula exact (square ▸ first.denotes) rigid one run).weaken nofun).congr
            fun s ρ c _ => ?_
          rw [← rows_of square]
          rfl
  | @cofactor a n matrix =>
      obtain _ | ⟨first, _ | _⟩ := renders
      cases lowered with
      | cofactor run =>
          refine ((cofactor_formula exact (matrix ▸ first.denotes) run).weaken nofun).congr
            fun s ρ c _ => ?_
          rw [← rows_of matrix]
          rfl
  | @deviatoric a n matrix =>
      obtain _ | ⟨first, _ | _⟩ := renders
      cases lowered with
      | deviatoric run =>
          have shares := rows_of matrix ▸ fractions.shares a _ _ inside
          refine ((deviatoric_formula exact (matrix ▸ first.denotes) shares run).weaken nofun).congr
            fun s ρ c _ => ?_
          rw [← rows_of matrix]
          rfl
  | div | curl | rot => cases other
  | _ => cases lowered

omit rigid exact in
theorem build_simple (simple : op.kind.isCompound = false)
    (run : op.build values supply = .ok (v, after)) : op.assemble values = .ok v ∧ supply = after := by
  unfold Operator.build at run
  split at run
  · cases simple
  · cases simple
  · cases simple
  · exact (Fresh.lift_ok _ _).mp run

/-- The rule for simple kinds. -/
theorem reuse_renders (tame : Tame x) (simple : x.kind.isCompound = false)
    (other : x.kind.isDerivative = false) (renders : List.Forall₂ (Renders M) x.operands values)
    (run : x.reuse values supply = .ok (v, after)) : Renders M x v ∧ supply = after := by
  obtain ⟨_, rfl, rfl⟩ | rebuilt := reuse_cases run
  · exact ⟨renders_self tame, rfl⟩
  · cases reconstruct_cases rebuilt with
    | terminal data same => exact ⟨renders_self tame, same⟩
    | node made =>
        obtain ⟨made, same⟩ := build_simple simple made
        obtain _ | ⟨types, _⟩ := tame.typed
        exact ⟨⟨assemble_denotes rigid exact types tame simple other renders made, nofun⟩, same⟩
    | labelled => exact absurd rfl (tame.plain _ (.refl _))

/-- One rule renders a node from renderings of its operands. -/
theorem lower_keeps_values {e : Expr} (tame : Tame e)
    (derivatives : ∀ x, Within x e → x.kind.isDerivative = false) (squares : Squares e)
    (fractions : ReadsFractions M e) (drawn : Drawn e supply) :
    Keeps Lowering.rules e (Renders M) fun s => supply.index ≤ s.index := by
  intro x values rule v s s' inside found renders ready run
  have tame := tame.within inside
  have other := derivatives x inside
  cases kind : x.kind.isCompound with
  | false =>
      rw [Lowering.rule_of_simple kind] at found
      cases found
      obtain ⟨rendered, rfl⟩ := reuse_renders rigid exact tame kind other renders run
      exact ⟨rendered, ready⟩
  | true =>
      cases x with
      | terminal data => cases data <;> cases kind
      | labelled label body => cases kind
      | node op operands shape free =>
          obtain _ | ⟨types, _⟩ := tame.typed
          have lowered := Lowering.rule_of_compound types kind found renders.length_eq.symm run
          have below (o : Expr) (member : o ∈ operands) : Below o.free.Has s := fun i d known => by
            have part : Within o (.node op operands shape free) := .operand member
            exact Nat.lt_of_lt_of_le (drawn o (part.trans inside) i d known) ready
          exact ⟨⟨lowered_denotes rigid exact types inside squares fractions below other renders lowered,
            nofun⟩, Nat.le_trans ready lowered.grows.1⟩

end Rules

/-- Every component of what an expression is lowered to has the value of that component of the
expression. -/
theorem lower_value (M : Reading K) (rigid : M.Rigid) {e r : Expr} {supply after : Supply}
    (made : Constructible e) (plain : Unlabelled e)
    (derivatives : ∀ x, Within x e → x.kind.isDerivative = false) (fair : Fair e)
    (squares : Squares e) (fractions : ReadsFractions M e) (drawn : Drawn e supply)
    (run : e.lower supply = .ok (r, after))
    (exact : M.FoldsExactly fun folding => @Expr.lower folding e supply) :
    r.shape = e.shape ∧ r.free ⊆ e.free ∧
      ∀ s ρ c, c.length = e.rank → M.value r s ρ c = M.value e s ρ c := by
  -- The run under exact folds is the same run, and each of its folds keeps values.
  have run : @Expr.lower M.exactFolding e supply = .ok (r, after) := exact.trans run
  let folding := M.exactFolding
  have consistent : Consistent e := fun label a b inside => absurd rfl (plain _ inside)
  have keeps := lower_keeps_values rigid M.exact_folding_exact ⟨made.well_typed, plain, fair⟩
    derivatives squares fractions drawn
  obtain ⟨⟨rendered, _⟩, _⟩ := transform_keeps consistent keeps (Nat.le_refl _) run
  exact ⟨rendered.shaped, rendered.free, rendered.value⟩

section Sample

theorem within_determinant {data : Terminal} {x : Expr}
    (inside : Within x (.node .determinant [.terminal data] [] ∅)) :
    x = .node .determinant [.terminal data] [] ∅ ∨ x = .terminal data := by
  cases inside with
  | refl => exact .inl rfl
  | step member inside =>
      obtain rfl := List.mem_singleton.mp member
      cases inside with
      | refl => exact .inr rfl
      | step member => cases member

theorem determinant_derivatives {data : Terminal} (x : Expr)
    (inside : Within x (.node .determinant [.terminal data] [] ∅)) : x.kind.isDerivative = false := by
  obtain rfl | rfl := within_determinant inside
  · rfl
  · cases data <;> rfl

theorem determinant_square {n : Nat} {data : Terminal} (square : data.shape = [n, n]) (a : Expr)
    (shape : Shape) (free : FreeIndices)
    (inside : Within (.node .determinant [a] shape free) (.node .determinant [.terminal data] [] ∅)) :
    a.shape = [n, n] := by
  obtain same | same := within_determinant inside <;> cases same
  exact square

theorem determinant_fractions {data : Terminal} :
    ReadsFractions M (.node .determinant [.terminal data] [] ∅) := by
  refine ⟨fun a shape free inside => ?_, fun a shape free inside => ?_⟩
  · obtain same | same := within_determinant inside <;> cases same
  · obtain same | same := within_determinant inside <;> cases same

theorem determinant_drawn {data : Terminal} (closed : data.free = ∅) :
    Drawn (.node .determinant [.terminal data] [] ∅) {} := by
  intro x inside i d known
  have free : x.free = ∅ := by
    obtain rfl | rfl := within_determinant inside
    · rfl
    · exact closed
  rw [free] at known
  cases known

/-- The determinant of the matrix without rows. -/
def emptyDeterminant : Expr := .node .determinant [.terminal (.zero [0, 0] ∅)] [] ∅

/-- Every zero matrix has the determinant 0 in the lowering. The one without rows has the determinant 1
in linear algebra, so `Squares` asks for a row. -/
theorem lower_value_of_no_rows :
    Constructible emptyDeterminant ∧ Unlabelled emptyDeterminant ∧
      (∀ x, Within x emptyDeterminant → x.kind.isDerivative = false) ∧ Fair emptyDeterminant ∧
      (∀ a shape free, Within (.node .determinant [a] shape free) emptyDeterminant →
        ∃ n, a.shape = [n, n]) ∧
      ReadsFractions sampleReading emptyDeterminant ∧ Drawn emptyDeterminant {} ∧
      ∃ r, (∀ folding, @Expr.lower folding emptyDeterminant {} = .ok (r, {})) ∧
        sampleReading.value r none (fun _ => 0) [] = 0 ∧
        sampleReading.value emptyDeterminant none (fun _ => 0) [] = 1 := by
  have matrix : Constructible (.terminal (.zero [0, 0] ∅)) := .terminal _
  have made : Constructible emptyDeterminant :=
    .assemble .determinant (by decide) (List.forall_mem_singleton.mpr matrix) rfl
  have tame : Tame emptyDeterminant :=
    tame_node (.determinant rfl) (List.forall_mem_singleton.mpr (tame_terminal _)) nofun
  have run (folding : Folding) : @Expr.lower folding emptyDeterminant {} = .ok (zero, {}) := by
    have formula : (Expr.terminal (.zero [0, 0] ∅)).determinantFormula {} = .ok (zero, {}) := rfl
    exact transform_over rfl (transform_leaf rfl rfl) rfl ((Fresh.map_error_ok _ _ _).mpr formula)
  refine ⟨made, tame.plain, determinant_derivatives, tame.fair, fun a shape free inside =>
    ⟨0, determinant_square rfl a shape free inside⟩, determinant_fractions, determinant_drawn rfl,
    zero, run, rfl, ?_⟩
  show (squareOf 0 fun _ => (0 : ℚ)).det = 1
  exact Matrix.det_isEmpty

/-- The determinant of the matrix with rows 2, 3 and 3, 4 stays -1. -/
theorem lower_value_of_determinant :
    ∃ r, sampleDeterminant.lower {} = .ok (r, {}) ∧
      sampleReading.value r none (fun _ => 0) [] = -1 := by
  have run (folding : Folding) : @Expr.lower folding sampleDeterminant {} = .ok (sampleMinor, {}) :=
    sample_determinant_lowered
  refine ⟨sampleMinor, run _, ?_⟩
  have tame : Tame sampleDeterminant :=
    tame_node (.determinant rfl) (List.forall_mem_singleton.mpr (tame_terminal _)) nofun
  have squares : Squares sampleDeterminant := by
    refine ⟨fun a shape free inside => ⟨2, nofun, determinant_square rfl a shape free inside⟩,
      fun a shape free inside => ?_⟩
    obtain same | same := within_determinant inside <;> cases same
  obtain ⟨_, _, same⟩ := lower_value sampleReading (fun _ _ _ => rfl) sample_determinant_constructible
    tame.plain determinant_derivatives tame.fair squares determinant_fractions (determinant_drawn rfl)
    (run _) ((run _).trans (run _).symm)
  rw [same none (fun _ => 0) [] rfl]
  show (squareOf 2 fun c => ((c.sum : Nat) : ℚ) + 2).det = -1
  rw [Matrix.det_fin_two]
  norm_num [squareOf]

end Sample

end FormCalculus
