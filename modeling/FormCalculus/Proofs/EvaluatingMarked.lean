import FormCalculus.Evaluation.Evaluate
import FormCalculus.Proofs.ExpandingEchoes
import FormCalculus.Proofs.LoweringNothing
import FormCalculus.Proofs.NamedOnce
import FormCalculus.Proofs.Remembering

/-!
Naming repeated subexpressions does not change what an expression evaluates to, where it has no
compound operators and no derivatives.
-/
set_option autoImplicit false

namespace FormCalculus.Expr

/-- The value of a scalar terminal. -/
def leafWorth (bindings : Bindings) (data : Terminal) : Except EvalError Float :=
  match data with
  | .zero .. => .ok 0
  | .int value => .ok (Float.ofInt value.toInt)
  | .real value => .ok value.toFloat
  | .argument _ | .coefficient _ | .coordinate _ => bindings.read (.terminal data) []
  | _ => .error (.unsupported (.terminal data))

mutual
/-- The value of a scalar expression without indices, worked out anew at each occurrence. -/
def worth (bindings : Bindings) : Expr → Except EvalError Float
  | .terminal data => leafWorth bindings data
  | e@(.node .indexed [tensor, subscripts] _ _) =>
      match subscripts.fixedComponent? with
      | some component => bindings.read tensor component
      | none => .error (.unsupported e)
  | .node .sum [a, b] _ _ => do return (← worth bindings a) + (← worth bindings b)
  | .node .product [a, b] _ _ => do return (← worth bindings a) * (← worth bindings b)
  | .node .division [a, b] _ _ => do return (← worth bindings a) / (← worth bindings b)
  | .node .power [a, b] _ _ => do return (← worth bindings a).pow (← worth bindings b)
  | .node .sqrt [a] _ _ => do return (← worth bindings a).sqrt
  | .node .conditional [test, whenTrue, whenFalse] _ _ => do
      if ← meets bindings test then worth bindings whenTrue else worth bindings whenFalse
  | e@(.node ..) => .error (.unsupported e)
  | .labelled _ body => worth bindings body
  termination_by structural e => e
def meets (bindings : Bindings) : Expr → Except EvalError Bool
  | .node (.condition .and) [a, b] _ _ => do
      if ← meets bindings a then meets bindings b else return false
  | .node (.condition .or) [a, b] _ _ => do
      if ← meets bindings a then return true else meets bindings b
  | .node (.condition .not) [a] _ _ => return !(← meets bindings a)
  | .node (.condition op) [a, b] _ _ => do
      let x ← worth bindings a
      let y ← worth bindings b
      return op.holds x y
  | e => .error (.unsupported e)
  termination_by structural e => e
end

/-! The values that evaluation remembers are right. -/

section

variable {bindings : Bindings} {α β : Type}

/-- What is remembered of expressions without labels is their value. -/
def Recollects (bindings : Bindings) (memo : Memo Float) : Prop :=
  ∀ x v, Unlabelled x → memo[x]? = some v → worth bindings x = .ok v

/-- From right values `act` ends as `result` says, with right values. -/
def Follows (bindings : Bindings) (act : Evaluation α) (result : Except EvalError α) : Prop :=
  ∀ memo, Recollects bindings memo →
    match result with
    | .ok v => ∃ memo', act memo = .ok (v, memo') ∧ Recollects bindings memo'
    | .error e => act memo = .error e

theorem follows_iff {act : Evaluation α} {result : Except EvalError α} :
    Follows bindings act result ↔ Tracks (Recollects bindings) act result := by
  refine forall₂_congr fun memo known => ?_
  cases result <;> rfl

theorem follows_pure (v : α) : Follows bindings (pure v : Evaluation α) (.ok v) :=
  follows_iff.mpr (tracks_pure v)

theorem follows_throw (e : EvalError) : Follows bindings (throw e : Evaluation α) (.error e) :=
  follows_iff.mpr (tracks_throw e)

theorem follows_lift (result : Except EvalError α) :
    Follows bindings (liftM result : Evaluation α) result := follows_iff.mpr (tracks_lift result)

theorem follows_bind {act : Evaluation α} {result : Except EvalError α} {next : α → Evaluation β}
    {after : α → Except EvalError β} (first : Follows bindings act result)
    (rest : ∀ v, Follows bindings (next v) (after v)) :
    Follows bindings (act >>= next) (result >>= after) :=
  follows_iff.mpr (tracks_bind (follows_iff.mp first) fun v => follows_iff.mp (rest v))

theorem follows_memoized {e : Expr} {act : Evaluation Float} (plain : Unlabelled e)
    (follows : Follows bindings act (worth bindings e)) :
    Follows bindings (memoized e act) (worth bindings e) := by
  refine follows_iff.mpr (tracks_memoized (fun memo v known found => known e v plain found) ?_
    (follows_iff.mp follows))
  intro memo v known worth x w within found
  rw [Std.HashMap.getElem?_insert] at found
  split at found
  · rename_i same
    cases found
    exact same_eq plain same ▸ worth
  · exact known x w within found

theorem follows_two {γ : Type} {first : Evaluation α} {second : Evaluation β}
    {result : Except EvalError α} {result' : Except EvalError β} (f : α → β → γ)
    (left : Follows bindings first result) (right : Follows bindings second result') :
    Follows bindings (do return f (← first) (← second)) (do return f (← result) (← result')) :=
  follows_iff.mpr (tracks_two f (follows_iff.mp left) (follows_iff.mp right))

/-- Remembering values changes none of them. -/
theorem value_follows : (∀ e, Unlabelled e → Follows bindings (valueIn bindings e) (worth bindings e)) ∧
    ∀ e, Unlabelled e → Follows bindings (conditionIn bindings e) (meets bindings e) := by
  apply worth.mutual_induct
  case case1 =>
    intro data plain
    unfold valueIn
    refine follows_memoized plain ?_
    rw [worth]
    cases data <;> first | exact follows_pure _ | exact follows_lift _
  case case2 =>
    intro tensor subscripts shape free component known plain
    rw [valueIn]
    refine follows_memoized plain ?_
    rw [worth, known]
    exact follows_lift _
  case case3 =>
    intro tensor subscripts shape free unknown plain
    rw [valueIn]
    refine follows_memoized plain ?_
    rw [worth, unknown]
    exact follows_throw _
  case case4 | case5 | case6 | case7 =>
    intro a b shape free left right plain
    rw [valueIn]
    refine follows_memoized plain ?_
    rw [worth]
    exact follows_two _ (left (plain.operand List.mem_cons_self))
      (right (plain.operand (by simp [operands])))
  case case8 =>
    intro a shape free operand plain
    rw [valueIn]
    refine follows_memoized plain ?_
    rw [worth]
    exact follows_bind (operand (plain.operand List.mem_cons_self)) fun v => follows_pure _
  case case9 =>
    intro test a b shape free condition left right plain
    rw [valueIn]
    refine follows_memoized plain ?_
    rw [worth]
    refine follows_bind (condition (plain.operand List.mem_cons_self)) fun holds => ?_
    cases holds with
    | true => exact left (plain.operand (by simp [operands]))
    | false => exact right (plain.operand (by simp [operands]))
  case case10 =>
    intro op operands shape free indexed sum product division power sqrt conditional plain
    rw [valueIn]
    · refine follows_memoized plain ?_
      rw [worth]
      · exact follows_throw _
      all_goals assumption
    all_goals assumption
  case case11 => exact fun label body _ plain => absurd rfl (plain _ (.refl _))
  case case12 =>
    intro a b shape free left right plain
    rw [conditionIn, meets]
    refine follows_bind (left (plain.operand List.mem_cons_self)) fun holds => ?_
    cases holds with
    | true => exact right (plain.operand (by simp [operands]))
    | false => exact follows_pure false
  case case13 =>
    intro a b shape free left right plain
    rw [conditionIn, meets]
    refine follows_bind (left (plain.operand List.mem_cons_self)) fun holds => ?_
    cases holds with
    | true => exact follows_pure true
    | false => exact right (plain.operand (by simp [operands]))
  case case14 =>
    intro a shape free operand plain
    rw [conditionIn, meets]
    exact follows_bind (operand (plain.operand List.mem_cons_self)) fun holds => follows_pure _
  case case15 =>
    intro op a b shape free notAnd notOr left right plain
    rw [conditionIn, meets]
    · exact follows_two _ (left (plain.operand List.mem_cons_self))
        (right (plain.operand (by simp [operands])))
    all_goals assumption
  case case16 =>
    intro e both either not compared plain
    rw [conditionIn, meets]
    · exact follows_throw _
    all_goals assumption

end

/-! What is computed alike has one value. -/

section

variable {bindings : Bindings} {x y : Expr}

theorem worth_alike (alike : Alike x y) :
    (∀ v, worth bindings x = .ok v → worth bindings y = .ok v) ∧
      ∀ t, meets bindings x = .ok t → meets bindings y = .ok t := by
  induction alike with
  | refl => exact ⟨fun _ => id, fun _ => id⟩
  | @real x y same =>
      refine ⟨fun v run => ?_, fun t run => ?_⟩
      · rw [worth] at run ⊢
        exact (congrArg Except.ok same).symm.trans run
      · unfold meets at run
        cases run
  | @node op xs vs ws shape free elementary length pairs reordered ih =>
      have both : List.Forall₂ (fun x v => (∀ r, worth bindings x = .ok r → worth bindings v = .ok r) ∧
          ∀ t, meets bindings x = .ok t → meets bindings v = .ok t) xs vs :=
        List.forall₂_iff_zip.mpr ⟨length, fun {x v} pair => ih x v pair⟩
      constructor
      · intro r run
        generalize whole : Expr.node op xs shape free = e at run
        unfold worth at run
        split at run
        · cases whole
        · cases whole
          cases elementary
        · cases whole
          simp only [except_bind_ok, except_pure_ok] at run
          obtain ⟨p, first, q, second, rfl⟩ := run
          obtain ⟨c, d, rfl, left, right⟩ := pairs_two both
          obtain rfl | ⟨_, _, _, same, rfl⟩ := reordered
          · simp [worth, left.1 p first, right.1 q second]
          · cases same
            simp [worth, left.1 p first, right.1 q second, float_add_comm q p]
        · cases whole
          simp only [except_bind_ok, except_pure_ok] at run
          obtain ⟨p, first, q, second, rfl⟩ := run
          obtain ⟨c, d, rfl, left, right⟩ := pairs_two both
          obtain rfl | ⟨_, _, _, same, rfl⟩ := reordered
          · simp [worth, left.1 p first, right.1 q second]
          · cases same
            simp [worth, left.1 p first, right.1 q second, float_mul_comm q p]
        · cases whole
          simp only [except_bind_ok, except_pure_ok] at run
          obtain ⟨p, first, q, second, rfl⟩ := run
          obtain ⟨c, d, rfl, left, right⟩ := pairs_two both
          obtain rfl := reordered.same (by simp)
          simp [worth, left.1 p first, right.1 q second]
        · cases whole
          simp only [except_bind_ok, except_pure_ok] at run
          obtain ⟨p, first, q, second, rfl⟩ := run
          obtain ⟨c, d, rfl, left, right⟩ := pairs_two both
          obtain rfl := reordered.same (by simp)
          simp [worth, left.1 p first, right.1 q second]
        · cases whole
          simp only [except_bind_ok, except_pure_ok] at run
          obtain ⟨p, first, rfl⟩ := run
          obtain ⟨c, rfl, operand⟩ := pairs_one both
          obtain rfl := reordered.same (by simp)
          simp [worth, operand.1 p first]
        · cases whole
          obtain ⟨holds, first, run⟩ := (except_bind_ok _ _ _).mp run
          obtain ⟨test, c, d, rfl, condition, left, right⟩ := pairs_three both
          obtain rfl := reordered.same (by simp)
          rw [worth, condition.2 holds first]
          cases holds with
          | true => exact left.1 r run
          | false => exact right.1 r run
        · cases run
        · cases whole
      · intro t run
        generalize whole : Expr.node op xs shape free = e at run
        unfold meets at run
        split at run
        · cases whole
          obtain ⟨holds, first, run⟩ := (except_bind_ok _ _ _).mp run
          obtain ⟨c, d, rfl, left, right⟩ := pairs_two both
          obtain rfl := reordered.same (by simp)
          rw [meets, left.2 holds first]
          cases holds with
          | true => exact right.2 t run
          | false => exact run
        · cases whole
          obtain ⟨holds, first, run⟩ := (except_bind_ok _ _ _).mp run
          obtain ⟨c, d, rfl, left, right⟩ := pairs_two both
          obtain rfl := reordered.same (by simp)
          rw [meets, left.2 holds first]
          cases holds with
          | true => exact run
          | false => exact right.2 t run
        · cases whole
          simp only [except_bind_ok, except_pure_ok] at run
          obtain ⟨p, first, rfl⟩ := run
          obtain ⟨c, rfl, operand⟩ := pairs_one both
          obtain rfl := reordered.same (by simp)
          simp [meets, operand.2 p first]
        · rename_i notAnd notOr
          cases whole
          simp only [except_bind_ok, except_pure_ok] at run
          obtain ⟨p, first, q, second, rfl⟩ := run
          obtain ⟨c, d, rfl, left, right⟩ := pairs_two both
          obtain rfl := reordered.same (by simp)
          rw [meets]
          · simp [left.1 p first, right.1 q second]
          · exact notAnd
          · exact notOr
        · cases run

end

section

variable {bindings : Bindings} {x y e m r : Expr} {v : Float}

/-- Starting with nothing remembered, evaluation is the reference evaluation. -/
theorem value_in_eq (plain : Unlabelled r) : (r.valueIn bindings).run' ∅ = worth bindings r := by
  have empty : Recollects bindings ∅ := fun x v _ found => by simp at found
  have follows := value_follows.1 r plain ∅ empty
  show (r.valueIn bindings ∅ >>= fun result => pure result.1) = _
  cases known : worth bindings r with
  | ok value =>
      rw [known] at follows
      obtain ⟨memo, run, _⟩ := follows
      rw [run]
      rfl
  | error err =>
      rw [known] at follows
      rw [show r.valueIn bindings ∅ = .error err from follows]
      rfl

theorem value_in_runs (plain : Unlabelled r) :
    (r.valueIn bindings).run' ∅ = .ok v ↔ worth bindings r = .ok v := by
  rw [value_in_eq plain]

theorem DerivativeFree.echoes (free : Reading.DerivativeFree x) (echoes : Echoes x y) :
    Reading.DerivativeFree y := by
  intro d inside
  by_cases labelled : d.kind = .labelled
  · exact ⟨by rw [labelled]; decide, by rw [labelled]; decide⟩
  · obtain ⟨o, within, kind⟩ := echoes.within inside labelled
    exact kind ▸ free o within

theorem has_compound_echoes (plain : ¬ HasCompound x) (echoes : Echoes x y) : ¬ HasCompound y := by
  rintro ⟨d, inside, compound⟩
  have other : d.kind ≠ .labelled := fun kind => by rw [kind] at compound; cases compound
  obtain ⟨o, within, kind⟩ := echoes.within inside other
  exact plain ⟨o, within, kind ▸ compound⟩

theorem expand_scalar (scalar : x.shape = []) : x.expand = x.expandIn ⟨[], []⟩ := by
  unfold expand
  rw [scalar, tabulate]

theorem evaluate_steps {supply after : Supply} :
    e.evaluate bindings supply = .ok (v, after) ↔
      e.shape = [] ∧ e.free.isEmpty = true ∧ ∃ l, e.lower supply = .ok (l, after) ∧
        ∃ r, l.expand = .ok r ∧ (r.valueIn bindings).run' ∅ = .ok v := by
  have guard : (!e.isScalar || !e.free.isEmpty) = true ↔ ¬ (e.shape = [] ∧ e.free.isEmpty = true) := by
    rw [← is_scalar_iff]
    cases e.isScalar <;> cases e.free.isEmpty <;> simp
  rw [← and_assoc]
  unfold evaluate
  by_cases refused : (!e.isScalar || !e.free.isEmpty) = true
  · rw [if_pos refused]
    simp only [Fresh.bind_ok, Fresh.throw_not_ok, false_and, exists_false, guard.mp refused]
  · rw [if_neg refused]
    have passed : e.shape = [] ∧ e.free.isEmpty = true :=
      not_not.mp fun other => refused (guard.mpr other)
    simp only [Fresh.bind_ok, Fresh.map_error_ok, Fresh.lift_ok, iff_true_intro passed, true_and]
    constructor
    · rintro ⟨l, _, lowered, r, _, ⟨expanded, rfl⟩, run, rfl⟩
      exact ⟨l, lowered, r, expanded, run⟩
    · rintro ⟨l, lowered, r, expanded, run⟩
      exact ⟨l, after, lowered, r, after, ⟨expanded, rfl⟩, run, rfl⟩

/-- What echoes expand to has the same value. -/
theorem expanded_worth (echoes : Echoes x y) (left : Algebraic x) (right : Algebraic y)
    {scope : Scope} (value : ∃ r, x.expandIn scope = .ok r ∧ worth bindings r = .ok v) :
    ∃ r, y.expandIn scope = .ok r ∧ worth bindings r = .ok v := by
  obtain ⟨r, expanded, value⟩ := value
  obtain ⟨r', expanded', alike⟩ := expand_echoes echoes left right expanded
  exact ⟨r', expanded', (worth_alike alike).1 v value⟩

/-- Where there is nothing to lower, the value is that of the expansion. -/
theorem evaluate_ok {supply : Supply} (algebraic : Algebraic e) (harmonious : Harmonious e)
    (plain : ¬ HasCompound e) :
    (∃ after, e.evaluate bindings supply = .ok (v, after)) ↔ e.shape = [] ∧ e.free.isEmpty = true ∧
      ∃ r, e.expandIn ⟨[], []⟩ = .ok r ∧ worth bindings r = .ok v := by
  obtain ⟨l, run, echoes, formed⟩ := lower_echoes algebraic.formed algebraic.formed.well_typed
    harmonious plain algebraic.free supply
  have algebraic' : Algebraic l := ⟨formed, DerivativeFree.echoes algebraic.free echoes⟩
  constructor
  · rintro ⟨after, ran⟩
    obtain ⟨scalar, closed, l', ran, r, expanded, value⟩ := evaluate_steps.mp ran
    obtain ⟨rfl, -⟩ : l = l' ∧ supply = after := by simpa using run.symm.trans ran
    rw [expand_scalar (echoes.shape.trans scalar)] at expanded
    exact ⟨scalar, closed, expanded_worth echoes.symm algebraic' algebraic
      ⟨r, expanded, (value_in_runs (algebraic'.unlabelled expanded)).mp value⟩⟩
  · rintro ⟨scalar, closed, value⟩
    obtain ⟨r, expanded, value⟩ := expanded_worth echoes algebraic algebraic' value
    refine ⟨supply, evaluate_steps.mpr ⟨scalar, closed, l, run, r, ?_, ?_⟩⟩
    · rw [expand_scalar (echoes.shape.trans scalar), expanded]
    · exact (value_in_runs (algebraic'.unlabelled expanded)).mpr value

/-- Marking keeps the value of an expression without compound operators and derivatives. -/
theorem evaluate_marked {supply last before other : Supply} (made : Constructible e)
    (consistent : Consistent e) (supplied : Supplied e supply) (plain : ¬ HasCompound e)
    (free : Reading.DerivativeFree e) (mark : e.markDuplications supply = .ok (m, last)) :
    (∃ after, e.evaluate bindings before = .ok (v, after)) ↔
      ∃ after, m.evaluate bindings other = .ok (v, after) := by
  have uniform : Uniform e := fun d inside kind =>
    absurd kind (not_or.mpr (free d inside))
  obtain ⟨w, _, marked, formed⟩ := mark_duplications_marked made consistent supplied uniform mark
  have echoes := marked.echoes
  have left : Algebraic e := ⟨made.formed, free⟩
  have right : Algebraic m := ⟨formed, DerivativeFree.echoes free echoes⟩
  rw [evaluate_ok left consistent.harmonious plain,
    evaluate_ok right marked.harmonious (has_compound_echoes plain echoes), echoes.shape, echoes.free]
  exact and_congr_right fun _ => and_congr_right fun _ =>
    ⟨expanded_worth echoes left right, expanded_worth echoes.symm right left⟩

end

theorem read_insert {bindings : Bindings} {data : Terminal} {value : Value} {component : Component}
    {entry : Float} (found : value.get? component = some entry) :
    (bindings.insert (.terminal data) value).read (.terminal data) component = .ok entry := by
  have known : (bindings.insert (.terminal data) value).get? (.terminal data) = some value :=
    Std.HashMap.getElem?_insert_self
  rw [Bindings.read, known]
  simp only [found]

theorem evaluate_marked_flat_square : ∃ after, flatSquareMarked.evaluate
    (Bindings.empty.insert flat (.scalar 3)) {} = .ok (9, after) := by
  have field : Constructible flat := .terminal _
  have made : Constructible flatSquare :=
    .assemble .product (by decide) (operands_pair field field) (by cbv)
  have plain : Unlabelled flatSquare := by decide
  have bare : ∀ label body, ¬ Within (.labelled label body) flatSquare := fun label body inside =>
    plain _ inside rfl
  have kinds : ∀ x ∈ parts flatSquare,
      (x.kind ≠ .grad ∧ x.kind ≠ .spatialDerivative) ∧ x.kind.isCompound = false := by decide
  have free : Reading.DerivativeFree flatSquare := fun x inside => (kinds x (mem_parts.mpr inside)).1
  have simple : ¬ HasCompound flatSquare := by
    rintro ⟨x, inside, compound⟩
    exact Bool.false_ne_true ((kinds x (mem_parts.mpr inside)).2.symm.trans compound)
  have consistent : Consistent flatSquare := fun label a _ inside => absurd inside (bare label a)
  have supplied : Supplied flatSquare {} := fun label body inside => absurd inside (bare label body)
  have value : worth (Bindings.empty.insert flat (.scalar 3)) flatSquare = .ok 9 := by
    have factor : worth (Bindings.empty.insert flat (.scalar 3)) flat = .ok 3 := read_insert rfl
    show (do return (← worth _ flat) * (← worth _ flat)) = _
    rw [factor]
    exact congrArg Except.ok (by decide +kernel : (3 : Float) * 3 = 9)
  have ran : ∃ after, flatSquare.evaluate (Bindings.empty.insert flat (.scalar 3)) {} =
      .ok (9, after) :=
    (evaluate_ok ⟨made.formed, free⟩ consistent.harmonious simple).mpr
      ⟨rfl, rfl, flatSquare, by cbv, value⟩
  exact (evaluate_marked made consistent supplied simple free flat_square_run).mp ran

end FormCalculus.Expr
