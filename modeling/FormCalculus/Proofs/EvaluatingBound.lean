import FormCalculus.Proofs.EvaluatingMarked
import FormCalculus.Proofs.ExpandingRefusals

/-!
An expression whose functions and coordinates all have values of their shapes evaluates. Lowering
leaves it as it is, its expansion is refused for a divisor that expands to zero at most, and what is
then computed reads components that the bound values have.
-/
set_option autoImplicit false

namespace FormCalculus

namespace Value

/-- All rows are as long as the first; an array has an entry for each component of its shape. -/
def Rectangular : Value → Prop
  | .rows table => ∀ row ∈ table, row.length = (table.headD []).length
  | .array shape entries => entries.length = shape.prod
  | _ => True

theorem offset_lies {shape : Shape} {component : Component} (lies : component.Lies shape) :
    ∃ place, offset? shape component = some place ∧ place < shape.prod := by
  induction lies with
  | nil => exact ⟨0, rfl, Nat.one_pos⟩
  | @cons position dim component shape below _ ih =>
      obtain ⟨place, found, inside⟩ := ih
      refine ⟨position * shape.prod + place, ?_, ?_⟩
      · show (if position < dim then (offset? shape component).map (position * shape.prod + ·)
          else none) = _
        rw [if_pos below, found]
        rfl
      · rw [List.prod_cons]
        calc position * shape.prod + place < position * shape.prod + shape.prod := by omega
          _ = (position + 1) * shape.prod := (Nat.succ_mul position shape.prod).symm
          _ ≤ dim * shape.prod := Nat.mul_le_mul_right shape.prod below

theorem get_lies {value : Value} {component : Component} (rectangular : value.Rectangular)
    (lies : component.Lies value.shape) : ∃ entry, value.get? component = some entry := by
  cases value with
  | scalar entry =>
      cases lies
      exact ⟨entry, rfl⟩
  | vector entries =>
      obtain _ | ⟨below, _ | _⟩ := lies
      exact ⟨_, List.getElem?_eq_getElem below⟩
  | rows table =>
      obtain _ | ⟨below, _ | ⟨inside, _ | _⟩⟩ := lies
      rename_i row column
      have long : column < table[row].length :=
        (rectangular table[row] (List.getElem_mem below)).symm ▸ inside
      refine ⟨table[row][column], ?_⟩
      simp only [get?, List.getElem?_eq_getElem below, Option.bind_some, List.getElem?_eq_getElem long]
  | array shape entries =>
      obtain ⟨place, found, inside⟩ := offset_lies lies
      have here : place < entries.length := rectangular.symm ▸ inside
      refine ⟨entries[place], ?_⟩
      show (offset? shape component).bind (entries[·]?) = some entries[place]
      rw [show offset? shape component = some place from found, Option.bind_some,
        List.getElem?_eq_getElem here]

end Value

/-- The terminals that have no value of their own. -/
def Terminal.isBindable : Terminal → Bool
  | .argument _ | .coefficient _ | .coordinate _ => true
  | _ => false

/-- Functions and coordinates in `e` are bound to values of their shapes. -/
def Bindings.Covers (bindings : Bindings) (e : Expr) : Prop :=
  ∀ data, Expr.Within (.terminal data) e → data.isBindable = true → ∃ value,
    bindings.get? (.terminal data) = some value ∧ value.Rectangular ∧ value.shape = data.shape

theorem Bindings.Covers.operand {bindings : Bindings} {o e : Expr} (covers : bindings.Covers e)
    (member : o ∈ e.operands) : bindings.Covers o :=
  fun data inside => covers data (.step member inside)

namespace Expr

/-- An expression is computed as a number, or asked as a condition. -/
inductive Use
  | number
  | test

/-- What is made of constants, functions and coordinates by arithmetic, indexing and choices. Conditions
are asked only as the test of a choice or by a connective, unless they may stand `astray`. -/
inductive Computable (astray : Prop) : Use → Expr → Prop
  | terminal {data : Terminal} :
      data.kind ∈ [.zero, .int, .real, .identity, .argument, .coefficient, .coordinate] →
      Computable astray .number (.terminal data)
  | labelled {label : Label} {body : Expr} : Computable astray .number body →
      Computable astray .number (.labelled label body)
  | arithmetic {op : Operator} {operands : List Expr} {shape : Shape} {free : FreeIndices} :
      op ∈ [.sum, .product, .division, .power, .sqrt, .listTensor] →
      (∀ o ∈ operands, Computable astray .number o) →
      Computable astray .number (.node op operands shape free)
  | along {op : Operator} {e : Expr} {items : List IndexItem} {shape : Shape} {free : FreeIndices} :
      op ∈ [.indexed, .indexSum, .componentTensor] → Computable astray .number e →
      Computable astray .number (.node op [e, multiIndex items] shape free)
  | conditional {test a b : Expr} {shape : Shape} {free : FreeIndices} : Computable astray .test test →
      Computable astray .number a → Computable astray .number b →
      Computable astray .number (.node .conditional [test, a, b] shape free)
  | connective {how : Comparison} {operands : List Expr} {shape : Shape} {free : FreeIndices} :
      how.isLogical = true → (∀ o ∈ operands, Computable astray .test o) →
      Computable astray .test (.node (.condition how) operands shape free)
  | comparison {how : Comparison} {operands : List Expr} {shape : Shape} {free : FreeIndices} :
      how.isLogical = false → (∀ o ∈ operands, Computable astray .number o) →
      Computable astray .test (.node (.condition how) operands shape free)
  | condition {e : Expr} : astray → Computable astray .test e → Computable astray .number e

section Kinds

def isDerivative : Kind → Bool
  | .grad | .spatialDerivative | .variableDerivative => true
  | _ => false

variable {astray : Prop} {use : Use} {e x : Expr}

/-- The parts are computable too, but for the multi-indices. -/
theorem Computable.within (computable : Computable astray use e) (inside : Within x e) :
    (∃ use, Computable astray use x) ∨ x.kind = .multiIndex := by
  induction computable with
  | terminal kind =>
      cases inside with
      | refl => exact .inl ⟨_, .terminal kind⟩
      | step member => cases member
  | labelled body ih =>
      cases inside with
      | refl => exact .inl ⟨_, .labelled body⟩
      | step member inside => exact ih (List.mem_singleton.mp member ▸ inside)
  | arithmetic among below ih =>
      cases inside with
      | refl => exact .inl ⟨_, .arithmetic among below⟩
      | step member inside => exact ih _ member inside
  | along among first ih =>
      cases inside with
      | refl => exact .inl ⟨_, .along among first⟩
      | step member inside =>
          rcases List.mem_pair.mp member with rfl | rfl
          · exact ih inside
          · cases inside with
            | refl => exact .inr rfl
            | step member => cases member
  | conditional test first second ih ih' ih'' =>
      cases inside with
      | refl => exact .inl ⟨_, .conditional test first second⟩
      | step member inside =>
          simp only [operands, List.mem_cons, List.not_mem_nil, or_false] at member
          rcases member with rfl | rfl | rfl
          · exact ih inside
          · exact ih' inside
          · exact ih'' inside
  | connective logical below ih =>
      cases inside with
      | refl => exact .inl ⟨_, .connective logical below⟩
      | step member inside => exact ih _ member inside
  | comparison logical below ih =>
      cases inside with
      | refl => exact .inl ⟨_, .comparison logical below⟩
      | step member inside => exact ih _ member inside
  | condition _ _ ih => exact ih inside

theorem Computable.kind (computable : Computable astray use e) :
    isDerivative e.kind = false ∧ e.kind.isCompound = false := by
  induction computable with
  | @terminal data => cases data <;> exact ⟨rfl, rfl⟩
  | labelled | conditional | connective | comparison => exact ⟨rfl, rfl⟩
  | @arithmetic op _ _ _ among | @along op _ _ _ _ among =>
      cases op <;> first | exact ⟨rfl, rfl⟩ | simp at among
  | condition _ _ ih => exact ih

/-- It has neither derivatives nor compound operators. -/
theorem Computable.kinds (computable : Computable astray use e) (inside : Within x e) :
    isDerivative x.kind = false ∧ x.kind.isCompound = false := by
  rcases computable.within inside with ⟨_, computable⟩ | kind
  · exact computable.kind
  · rw [kind]
    exact ⟨rfl, rfl⟩

theorem Computable.derivative_free (computable : Computable astray use e) : Reading.DerivativeFree e := by
  intro x inside
  have other := (computable.kinds inside).1
  constructor <;> intro same <;> rw [same] at other <;> cases other

theorem Computable.tidy (computable : Computable astray use e) : Tidy e := by
  induction computable with
  | @terminal data kind => exact .terminal (by rintro same; rw [same] at kind; simp at kind)
  | labelled _ ih => exact .labelled ih
  | arithmetic _ _ ih | connective _ _ ih | comparison _ _ ih => exact .node ih
  | @along op _ _ _ _ among _ ih =>
      refine .along ?_ ih
      simp only [List.mem_cons, List.not_mem_nil, or_false] at among ⊢
      tauto
  | conditional _ _ _ ih ih' ih'' => exact .node (List.forall_mem_cons.mpr ⟨ih, operands_pair ih' ih''⟩)
  | condition _ _ ih => exact ih

theorem Computable.test_kind (computable : Computable astray .test e) : e.kind = .condition := by
  cases computable <;> rfl

end Kinds

section Computing

variable {astray : Prop} {use : Use} {bindings : Bindings} {α β : Type}

/-- A result comes out, or a condition is met where a number is computed. -/
def Computes (astray : Prop) (result : Except EvalError α) : Prop :=
  (∃ v, result = .ok v) ∨ astray ∧ ∃ c, c.kind = .condition ∧ result = .error (.unsupported c)

theorem computes_ok (v : α) : Computes astray (.ok v : Except EvalError α) := .inl ⟨v, rfl⟩

theorem computes_bind {act : Except EvalError α} {next : α → Except EvalError β}
    (first : Computes astray act) (rest : ∀ v, Computes astray (next v)) :
    Computes astray (act >>= next) := by
  rcases first with ⟨v, rfl⟩ | ⟨stray, c, kind, rfl⟩
  · exact rest v
  · exact .inr ⟨stray, c, kind, rfl⟩

theorem computes_map {act : Except EvalError α} (f : α → β) (first : Computes astray act) :
    Computes astray (do return f (← act)) :=
  computes_bind first fun v => computes_ok (f v)

theorem computes_two {γ : Type} {first : Except EvalError α} {second : Except EvalError β}
    (f : α → β → γ) (left : Computes astray first) (right : Computes astray second) :
    Computes astray (do return f (← first) (← second)) :=
  computes_bind left fun a => computes_bind right fun b => computes_ok (f a b)

/-- What the value of an expression is read off for. -/
def Use.Computes (use : Use) (astray : Prop) (bindings : Bindings) (r : Expr) : Prop :=
  match use with
  | .number => Expr.Computes astray (worth bindings r)
  | .test => Expr.Computes astray (meets bindings r)

theorem zeros_computes (shape : Shape) (free : FreeIndices) :
    Computes astray (worth bindings (zeros shape free)) := computes_ok _

theorem constant_computes (c : Constant) : Computes astray (worth bindings c.toExpr) := by
  cases c <;> exact computes_ok _

theorem int_computes (value : Int64) : Computes astray (worth bindings (int value)) := by
  unfold int
  split
  · exact constant_computes .zero
  · exact constant_computes (.int value)

theorem read_computes {e : Expr} {data : Terminal} {component : Component} (covers : bindings.Covers e)
    (inside : Within (.terminal data) e) (bindable : data.isBindable = true)
    (lies : component.Lies data.shape) :
    Computes astray (bindings.read (.terminal data) component) := by
  obtain ⟨value, known, rectangular, shape⟩ := covers data inside bindable
  obtain ⟨entry, found⟩ := Value.get_lies rectangular (shape ▸ lies)
  refine .inl ⟨entry, ?_⟩
  simp only [Bindings.read, known, found]

theorem fixed_component (component : Component) :
    (multiIndex (component.map .fixed)).fixedComponent? = some component := by
  show (component.map IndexItem.fixed).mapM IndexItem.fixed? = some component
  induction component with
  | nil => rfl
  | cons position rest ih => simp [IndexItem.fixed?, ih]

/-- A component that a terminal has can be read. -/
theorem selected_computes {data : Terminal} {component : Component} {r : Expr}
    (kind : data.kind ∈ [.zero, .int, .real, .identity, .argument, .coefficient, .coordinate])
    (covers : bindings.Covers (.terminal data))
    (run : (terminal data).selectAt component = .ok r) : Computes astray (worth bindings r) := by
  have scalar_computes (scalar : data.shape = []) : Computes astray (worth bindings (.terminal data)) := by
    rw [worth]
    cases data with
    | zero | int | real => exact computes_ok _
    | argument | coefficient | coordinate =>
        exact read_computes covers (.refl _) rfl (by rw [scalar]; exact .nil)
    | identity => cases scalar
    | label | multiIndex => simp [Terminal.kind] at kind
  unfold selectAt at run
  split at run
  · cases run
    exact scalar_computes (List.isEmpty_iff.mp ‹_›)
  have run : (terminal data).subscript (component.map .fixed) = .ok r :=
    (except_map_error_ok _ _ _).mp run
  have cases := subscript_cases run
  generalize listed : component.map IndexItem.fixed = items at cases run
  generalize whole : terminal data = e at cases
  cases cases with
  | whole scalar =>
      subst whole
      exact scalar_computes scalar
  | zero => exact zeros_computes _ _
  | identity => exact int_computes _
  | entry => cases whole
  | @node _ _ free some subscribed =>
      subst whole
      obtain ⟨-, nonzero, stays⟩ := subscript_stays run
      subst listed
      have lies : component.Lies data.shape := subscribed_lies subscribed
      have bindable : data.isBindable = true := by
        cases data with
        | argument | coefficient | coordinate => rfl
        | zero => cases nonzero
        | int | real => cases lies; exact absurd rfl some
        | identity dim =>
            obtain _ | ⟨_, _ | ⟨_, _ | _⟩⟩ := lies
            exact absurd (.inl ⟨rfl, _, _, rfl⟩) stays
        | label | multiIndex => simp [Terminal.kind] at kind
      have read : worth bindings (.node .indexed [terminal data, multiIndex (component.map .fixed)] [] free) =
          bindings.read (terminal data) component := by
        rw [worth, fixed_component component]
      rw [read]
      exact read_computes covers (.refl _) bindable lies

/-- Arithmetic computes what it is computed from. -/
theorem arithmetic_computes {op : Operator} {operands : List Expr} {shape : Shape} {free : FreeIndices}
    (among : op ∈ [.sum, .product, .division, .power, .sqrt]) (types : op.Types operands shape free)
    (below : ∀ o ∈ operands, Computes astray (worth bindings o)) :
    Computes astray (worth bindings (.node op operands shape free)) := by
  cases types with
  | sum | product | division | power =>
      rw [worth]
      exact computes_two _ (below _ (by simp)) (below _ (by simp))
  | sqrt =>
      rw [worth]
      exact computes_map _ (below _ (by simp))
  | _ => simp at among

theorem assembled_computes {op : Operator} {results : List Expr} {r : Expr}
    (among : op ∈ [.sum, .product, .division, .power, .sqrt])
    (below : ∀ v ∈ results, Computes astray (worth bindings v)) (run : op.assemble results = .ok r) :
    Computes astray (worth bindings r) := by
  have elementary : op.isElementary = true := by cases op <;> first | rfl | simp at among
  cases assemble_elementary elementary run with
  | operand member => exact below _ member
  | constant c => exact constant_computes c
  | zeros => exact zeros_computes _ _
  | node inside types => exact arithmetic_computes among types fun o member => below o (inside o member)

/-- Conditions are decided by what they compare or connect. -/
theorem condition_computes {how : Comparison} {results : List Expr} {r : Expr}
    (use : how.isLogical = true → ∀ v ∈ results, Computes astray (meets bindings v))
    (use' : how.isLogical = false → ∀ v ∈ results, Computes astray (worth bindings v))
    (run : Operator.assemble (.condition how) results = .ok r) : Computes astray (meets bindings r) := by
  obtain ⟨free, types, rfl⟩ := condition_cases run
  cases types with
  | condition arity checks =>
      cases how with
      | not =>
          obtain ⟨a, rfl⟩ := List.length_eq_one_iff.mp arity
          rw [meets]
          exact computes_map _ (use rfl a (by simp))
      | and | or =>
          obtain ⟨a, b, rfl⟩ := List.length_eq_two.mp arity
          rw [meets]
          refine computes_bind (use rfl a (by simp)) fun holds => ?_
          cases holds with
          | true => first | exact use rfl b (by simp) | exact computes_ok _
          | false => first | exact computes_ok _ | exact use rfl b (by simp)
      | eq | ne | lt | gt | le | ge =>
          obtain ⟨a, b, rfl⟩ := List.length_eq_two.mp arity
          rw [meets]
          · exact computes_two _ (use' rfl a (by simp)) (use' rfl b (by simp))
          all_goals simp

theorem expanded_origin {operands results : List Expr} {scope : Scope}
    (length : operands.length = results.length)
    (expands : ∀ o v, (o, v) ∈ operands.zip results → Expands o scope v) :
    ∀ v ∈ results, ∃ o ∈ operands, Expands o scope v := by
  intro v member
  obtain ⟨o, pair⟩ := partner_left length member
  exact ⟨o, (List.of_mem_zip pair).1, expands o v pair⟩

/-- A node kept where its operands have not changed is what its operator makes of them. -/
theorem expanded_assembles {op : Operator} {operands results : List Expr} {shape : Shape}
    {free : FreeIndices} {r : Expr} (algebraic : Algebraic (.node op operands shape free))
    (expands : ∀ v ∈ results, ∃ o ∈ operands, ∃ scope, Expands o scope v)
    (run : (node op operands shape free).reassemble op results = .ok r) :
    op.assemble results = .ok r := by
  have plain : ∀ v ∈ results, Unlabelled v := fun v member => by
    obtain ⟨o, inside, scope, expands⟩ := expands v member
    have operand : Algebraic o := algebraic.operand inside
    exact Reading.expands_unlabelled expands operand.formed.well_typed operand.free
  rwa [reassemble_formed algebraic.formed plain, except_map_error_ok] at run

theorem worth_condition {c : Expr} (kind : c.kind = .condition) :
    worth bindings c = .error (.unsupported c) := by
  cases c with
  | terminal data => cases data <;> cases kind
  | labelled => cases kind
  | node op =>
      cases op <;> first | (cases kind; done) | skip
      rw [worth]
      all_goals simp

/-- Wherever it is expanded, a computable expression leaves something that computes. -/
theorem computable_computes {use : Use} {e r : Expr} {scope : Scope} (computable : Computable astray use e)
    (algebraic : Algebraic e) (covers : bindings.Covers e) (expands : Expands e scope r) :
    use.Computes astray bindings r := by
  induction computable generalizing scope r with
  | terminal kind =>
      cases expands with
      | zero => exact zeros_computes _ _
      | multiIndex => simp [Terminal.kind] at kind
      | terminal _ _ _ selected => exact selected_computes kind covers selected
  | @labelled label body _ ih =>
      have member : body ∈ (Expr.labelled label body).operands := List.mem_cons_self
      cases expands with
      | labelled expands => exact ih (algebraic.operand member) (covers.operand member) expands
  | @arithmetic op operands _ _ among below ih =>
      have each {o v : Expr} {scope : Scope} (member : o ∈ operands) (expands : Expands o scope v) :
          Computes astray (worth bindings v) :=
        ih o member (algebraic.operand member) (covers.operand member) expands
      cases expands with
      | listTensor _ found expands => exact each (List.mem_of_getElem? found) expands
      | @pointwise _ _ results _ _ _ _ pointwise length expands run =>
          have arithmetic : op ∈ [.sum, .product, .division, .power, .sqrt] := by
            cases op <;> first | (cases pointwise; done) | simp_all
          have origin := expanded_origin length expands
          refine assembled_computes arithmetic (fun v member => ?_)
            (expanded_assembles algebraic (fun v member => ?_) run)
          · obtain ⟨o, inside, expands⟩ := origin v member
            exact each inside expands
          · obtain ⟨o, inside, expands⟩ := origin v member
            exact ⟨o, inside, _, expands⟩
      | _ => simp at among
  | @along op e items _ _ among _ ih =>
      have first {v : Expr} {scope : Scope} (expands : Expands e scope v) :
          Computes astray (worth bindings v) :=
        ih (algebraic.operand List.mem_cons_self) (covers.operand List.mem_cons_self) expands
      cases expands with
      | indexed _ expands => exact first expands
      | componentTensor _ expands => exact first expands
      | indexSum _ length expands total =>
          -- The sum starts from zero, and each partial sum computes if the terms do.
          refine foldlM_keeps (zeros_computes _ _) (fun sum term next member kept added => ?_) total
          obtain ⟨position, pair⟩ := partner_left length member
          have sum : Operator.sum ∈ [.sum, .product, .division, .power, .sqrt] := by simp
          exact assembled_computes sum (operands_pair kept (first (expands position term pair))) added
      | pointwise pointwise => cases op <;> first | (cases pointwise; done) | simp at among
      | listTensor => simp at among
  | @conditional test a b shape free _ _ _ ih ih' ih'' =>
      have operand {o : Expr} (member : o ∈ [test, a, b]) : Algebraic o ∧ bindings.Covers o :=
        ⟨algebraic.operand member, covers.operand member⟩
      cases expands with
      | @conditional _ _ _ test' a' b' _ _ _ _ expands expands' expands'' run =>
          have asked : Computes astray (meets bindings test') :=
            ih (operand (by simp)).1 (operand (by simp)).2 expands
          have first : Computes astray (worth bindings a') :=
            ih' (operand (by simp)).1 (operand (by simp)).2 expands'
          have second : Computes astray (worth bindings b') :=
            ih'' (operand (by simp)).1 (operand (by simp)).2 expands''
          have made : Operator.assemble .conditional [test', a', b'] = .ok r := by
            refine expanded_assembles algebraic (List.forall_mem_cons.mpr ⟨?_, operands_pair ?_ ?_⟩) run
            · exact ⟨test, by simp, _, expands⟩
            · exact ⟨a, by simp, _, expands'⟩
            · exact ⟨b, by simp, _, expands''⟩
          obtain ⟨_, _, rfl⟩ := conditional_cases made
          rw [Use.Computes, worth]
          refine computes_bind asked fun holds => ?_
          cases holds with
          | true => exact first
          | false => exact second
      | pointwise pointwise => cases pointwise
  | connective logical _ ih | comparison logical _ ih =>
      cases expands with
      | pointwise _ length expands run =>
          have origin := expanded_origin length expands
          have made := expanded_assembles algebraic (fun v member => by
            obtain ⟨o, inside, expands⟩ := origin v member
            exact ⟨o, inside, _, expands⟩) run
          refine condition_computes (fun kind v member => ?_) (fun kind v member => ?_) made
          all_goals
            first
            | exact absurd (logical.symm.trans kind) (by decide)
            | obtain ⟨o, inside, expands⟩ := origin v member
              exact ih o inside (algebraic.operand inside) (covers.operand inside) expands
  | condition stray test _ =>
      -- A condition that is computed as a number is what the evaluation stops at.
      have kind := expands_condition test.test_kind expands
      exact .inr ⟨stray, r, kind, worth_condition kind⟩

end Computing

section Evaluating

variable {astray : Prop} {bindings : Bindings} {e : Expr} {supply : Supply}

/-- Evaluation of what there is nothing to lower in. -/
theorem evaluate_stays (scalar : e.shape = []) (closed : e.free = ∅) (consistent : Consistent e)
    (simple : ¬ HasCompound e) (algebraic : Algebraic e) :
    e.evaluate bindings supply = (do
      let r ← (e.expandIn ⟨[], []⟩).mapError .transform
      return (← worth bindings r, supply)) := by
  have passed : (!e.isScalar || !e.free.isEmpty) = false := by
    rw [is_scalar_iff.mpr scalar, FreeIndices.is_empty_iff.mpr closed]
    rfl
  unfold evaluate
  rw [passed]
  show ((e.lower supply).mapError EvalError.transform >>= fun lowered =>
    (liftM lowered.1.expand : Fresh TransformError Expr).mapError EvalError.transform lowered.2 >>= fun expanded =>
      (liftM ((expanded.1.valueIn bindings).run' ∅) : Fresh EvalError Float) expanded.2) = _
  rw [lower_stays consistent simple]
  show ((liftM e.expand : Fresh TransformError Expr).mapError EvalError.transform supply >>= _) = _
  rw [expand_scalar scalar]
  cases run : e.expandIn ⟨[], []⟩ with
  | error err => rfl
  | ok r =>
      show (liftM ((r.valueIn bindings).run' ∅) : Fresh EvalError Float) supply = (do
        return (← worth bindings r, supply))
      rw [value_in_eq (algebraic.unlabelled run)]
      rfl

/-- An expression whose functions and coordinates are bound to values of their shapes has a value,
unless a divisor expands to zero, or a condition stands where a number is computed. -/
theorem evaluate_bound (made : Constructible e) (consistent : Consistent e)
    (computable : Computable astray .number e) (scalar : e.shape = []) (closed : e.free = ∅)
    (ranged : Ranged e) (covers : bindings.Covers e) :
    (∃ v, e.evaluate bindings supply = .ok (v, supply)) ∨
    (∃ a b shape free scope a' b', Within (.node .division [a, b] shape free) e ∧
      a.expandIn scope = .ok a' ∧ b.expandIn scope = .ok b' ∧ b'.isZero = true ∧
      e.evaluate bindings supply =
        .error (.transform (.build (.invalidOperand .division (.zeroDivisor a'))))) ∨
    astray ∧ ∃ c, c.kind = .condition ∧ e.evaluate bindings supply = .error (.unsupported c) := by
  have algebraic : Algebraic e := ⟨made.formed, computable.derivative_free⟩
  have simple : ¬ HasCompound e := fun ⟨x, inside, compound⟩ =>
    Bool.false_ne_true ((computable.kinds inside).2.symm.trans compound)
  rw [evaluate_stays scalar closed consistent simple algebraic]
  cases run : e.expandIn ⟨[], []⟩ with
  | ok r =>
      -- The expansion is there to be computed.
      have expands := expand_in_expands made.well_typed run
      have computes : Computes astray (worth bindings r) :=
        computable_computes computable algebraic covers expands
      simp only [Except.mapError, except_ok_bind]
      rcases computes with ⟨v, value⟩ | ⟨stray, c, kind, value⟩
      · rw [value]
        exact .inl ⟨v, rfl⟩
      · rw [value]
        exact .inr (.inr ⟨stray, c, kind, rfl⟩)
  | error err =>
      -- No index is free in the whole, and of the faults only a zero divisor is left.
      have expandable : Expandable 0 e := {
        formed := made.formed
        domain := fun x inside kind => absurd kind (computable.derivative_free x inside).2
        ranged := ranged
        direct := fun x inside kind => absurd kind (computable.derivative_free x inside).1
        tidy := computable.tidy }
      have fits : Fits e ⟨[], []⟩ := ⟨by rw [scalar]; exact .nil, fun _ _ _ _ none => nomatch none⟩
      cases expand_in_refused expandable _ _ fits run with
      | unassigned _ known => simp [closed] at known
      | fault inside fault =>
          have kinds := computable.kinds inside
          cases fault with
          | divisor first second zero =>
              exact .inr (.inl ⟨_, _, _, _, _, _, _, inside, first, second, zero, rfl⟩)
          | dimension => cases kinds.1
          | derivative => cases kinds.1
          | compound compound => exact absurd (compound.symm.trans kinds.2) (by decide)

end Evaluating

section Sample

theorem covers_insert {e : Expr} {data : Terminal} {value : Value} (rectangular : value.Rectangular)
    (shape : value.shape = data.shape)
    (only : ∀ x ∈ parts e, x.kind ∈ [.argument, .coefficient, .coordinate] → x = .terminal data) :
    (Bindings.empty.insert (.terminal data) value).Covers e := by
  intro other inside bindable
  have kind : other.kind ∈ [.argument, .coefficient, .coordinate] := by
    cases other with
    | argument | coefficient | coordinate => simp [Terminal.kind]
    | _ => cases bindable
  cases only _ (mem_parts.mpr inside) kind
  exact ⟨value, Std.HashMap.getElem?_insert_self, rectangular, shape⟩

/-- The square of the length of a field, with the field bound to a vector of numbers. -/
theorem evaluate_bound_square : ∃ v, sampleSquare.evaluate
    (Bindings.empty.insert sampleField (.vector [3, 4])) {} = .ok (v, {}) := by
  have plain : ∀ x ∈ parts sampleSquare, x.kind ≠ .division ∧ x.kind ≠ .labelled ∧
      ∀ space ∈ x.space?, space.symmetry = none := by decide
  have consistent : Consistent sampleSquare :=
    consistent_of_unlabelled fun x inside => (plain x (mem_parts.mpr inside)).2.1
  have ranged : Ranged sampleSquare := fun x space inside known => by
    obtain ⟨_, _, spaces⟩ := plain x (mem_parts.mpr inside)
    simp [FunctionSpace.Ranged, spaces space known]
  have covers : (Bindings.empty.insert sampleField (.vector [3, 4])).Covers sampleSquare :=
    covers_insert trivial rfl (by simp [parts, partsAll, sampleSquare, sampleAt, sampleField,
      Expr.kind, Terminal.kind, Operator.kind, multiIndex])
  have component : Computable False .number sampleAt := .along (by simp) (.terminal (by decide))
  have computable : Computable False .number sampleSquare :=
    .along (by simp) (.arithmetic (by simp) (operands_pair component component))
  rcases evaluate_bound sample_square_constructible consistent computable rfl rfl ranged covers with
    value | ⟨_, _, _, _, _, _, _, inside, _⟩ | ⟨stray, _⟩
  · exact value
  · exact absurd rfl (plain _ (mem_parts.mpr inside)).1
  · exact stray.elim

/-- A comparison, as an expression of its own. -/
def sampleComparison : Expr := .node (.condition .lt) [flat, .terminal (.int 1)] [] ∅

/-- It is refused as one, though it is a scalar without free indices and all in it is bound. -/
theorem evaluate_comparison_unsupported :
    Constructible sampleComparison ∧ Consistent sampleComparison ∧
    Computable True .number sampleComparison ∧ sampleComparison.shape = [] ∧
    sampleComparison.free = ∅ ∧ Ranged sampleComparison ∧
    (Bindings.empty.insert flat (.scalar 0)).Covers sampleComparison ∧
    sampleComparison.evaluate (Bindings.empty.insert flat (.scalar 0)) {} =
      .error (.unsupported sampleComparison) := by
  have plain : ∀ x ∈ parts sampleComparison, x.kind ≠ .labelled ∧ x.kind.isCompound = false ∧
      ∀ space ∈ x.space?, space.symmetry = none := by decide
  have consistent : Consistent sampleComparison :=
    consistent_of_unlabelled fun x inside => (plain x (mem_parts.mpr inside)).1
  have ranged : Ranged sampleComparison := fun x space inside known => by
    obtain ⟨_, _, spaces⟩ := plain x (mem_parts.mpr inside)
    simp [FunctionSpace.Ranged, spaces space known]
  have run : Operator.assemble (.condition .lt) [flat, .terminal (.int 1)] = .ok sampleComparison := by cbv
  have made : Constructible sampleComparison :=
    .assemble _ (by decide) (operands_pair (.terminal _) (.terminal _)) run
  have computable : Computable True .number sampleComparison :=
    .condition trivial (.comparison rfl (operands_pair (.terminal (by simp [Terminal.kind]))
      (.terminal (by simp [Terminal.kind]))))
  have simple : ¬ HasCompound sampleComparison := by
    rintro ⟨x, inside, compound⟩
    exact Bool.false_ne_true ((plain x (mem_parts.mpr inside)).2.1.symm.trans compound)
  have covers : (Bindings.empty.insert flat (.scalar 0)).Covers sampleComparison :=
    covers_insert trivial rfl (by simp [parts, partsAll, sampleComparison, flat, Expr.kind,
      Terminal.kind, Operator.kind])
  refine ⟨made, consistent, computable, rfl, rfl, ranged, covers, ?_⟩
  rw [evaluate_stays rfl rfl consistent simple ⟨made.formed, computable.derivative_free⟩]
  have expanded : sampleComparison.expandIn ⟨[], []⟩ = .ok sampleComparison := by cbv
  have refused : worth (Bindings.empty.insert flat (.scalar 0)) sampleComparison =
      .error (.unsupported sampleComparison) := worth_condition rfl
  simp only [expanded, Except.mapError, except_ok_bind, refused]
  rfl

end Sample

end Expr

end FormCalculus
