import FormCalculus.Proofs.ExpandingParts
import FormCalculus.Proofs.LoweringKinds
import FormCalculus.Proofs.Naming
import FormCalculus.Proofs.Stripping
import FormCalculus.Rewrite.Substitution

/-!
Every node of an expression that the constructors, the arithmetic, the closed forms and the passes
can make is what its operator makes of its operands, and obeys the typing rule of its operator.
-/
set_option autoImplicit false

namespace FormCalculus

namespace Expr

/-- The typing rule of the outermost node: what it stores is what its operands give it, on the domain
that the operands of a derivative live on. -/
def Obeys : Expr → Prop
  | .terminal _ => True
  | .node op operands shape free =>
      op.Types operands shape free ∧ op.Lives operands shape free ∧ op.Spreads operands
  | .labelled _ body => body.kind ≠ .multiIndex

variable {e o r x v : Expr} {values : List Expr}

theorem Formed.obeys (formed : Formed e) : Obeys e := by
  cases formed with
  | terminal => trivial
  | node run spreads _ =>
      -- A node comes out of its operator only after every check of the operator.
      obtain ⟨types, _, lives⟩ := Operator.assembled run
      exact ⟨types, lives, spreads⟩
  | labelled kind _ => exact kind

/-! What the constructors make. -/

section Constructors

variable {a b : Expr} {supply after : Supply}

theorem label_formed {label : Label} (formed : Formed a) (run : withLabel label a = .ok r) :
    Formed r := by
  obtain ⟨kind, rfl⟩ := with_label_cases run
  exact .labelled kind formed

theorem reconstruct_formed (formed : Formed x) (below : ∀ v ∈ values, Formed v)
    (run : x.reconstruct values supply = .ok (r, after)) : Formed r := by
  cases x with
  | terminal data =>
      cases reconstruct_cases run with
      | terminal => exact formed
  | node op operands shape free =>
      cases reconstruct_cases run with
      | node built => exact build_formed below built
  | labelled label body =>
      cases reconstruct_cases run with
      | labelled only =>
          subst only
          have labelled : withLabel label _ = .ok _ := ((Fresh.lift_ok _ _).mp run).1
          exact label_formed (below _ List.mem_cons_self) labelled

theorem reuse_formed (formed : Formed x) (below : ∀ v ∈ values, Formed v)
    (run : x.reuse values supply = .ok (r, after)) : Formed r := by
  obtain ⟨_, rfl, _⟩ | rebuilt := reuse_cases run
  · exact formed
  · exact reconstruct_formed formed below rebuilt

end Constructors

/-! What the passes return. Only the values count, so equal nodes may share one of them. -/

section Passes

variable {supply after : Supply}

/-- A pass returns a formed expression if its rules do, of formed values. -/
theorem transform_formed {rules : Rules (Fresh TransformError) Expr} (formed : Formed e)
    (keeps : ∀ x rule v s s', Formed x → rules.rule? x.kind = some rule →
      ∀ values, values.length = x.operands.length → (∀ v ∈ values, Formed v) →
        rule x values s = .ok (v, s') → Formed v)
    (run : transform rules e supply = .ok (r, after)) : Formed r := by
  have shares : Shares e fun _ v => Formed v := fun _ _ _ _ _ _ kept => kept
  have each : Keeps rules e (fun _ v => Formed v) fun _ => True := by
    intro x values rule v s s' inside found below _ ran
    have given : ∀ v ∈ values, Formed v := fun v member =>
      have ⟨_, _, kept⟩ := pairs_member below member
      kept
    exact ⟨keeps x rule v s s' (formed.within inside) found values below.length_eq.symm given ran,
      trivial⟩
  exact (transform_keeps_shared shares each trivial run).1

theorem lower_formed (formed : Formed e) (run : e.lower supply = .ok (r, after)) : Formed r := by
  refine transform_formed formed (fun x rule v s s' formed found values length below ran => ?_) run
  cases kind : x.kind.isCompound with
  | false =>
      rw [Lowering.rule_of_simple kind] at found
      cases found
      exact reuse_formed formed below ran
  | true =>
      cases x with
      | terminal data => cases data <;> cases kind
      | labelled => cases kind
      | node op operands shape free =>
          obtain ⟨types, _⟩ := formed.obeys
          exact (Lowering.rule_of_compound types kind found length ran).kept formed_stable below

/-- Whatever a table of replacements holds is one of them. -/
theorem replacement_formed {pairs : List (Expr × Expr)} (map : Memo Expr)
    (replacements : ∀ pair ∈ pairs, Formed pair.2)
    (known : ∀ x v : Expr, map[x]? = some v → Formed v) (x v : Expr)
    (found : (pairs.foldl (fun map pair => map.insert pair.1 pair.2) map)[x]? = some v) :
    Formed v := by
  induction pairs generalizing map with
  | nil => exact known x v found
  | cons pair rest ih =>
      obtain ⟨here, others⟩ := List.forall_mem_cons.mp replacements
      refine ih (map.insert pair.1 pair.2) others (fun y w found => ?_) found
      rw [Std.HashMap.getElem?_insert] at found
      by_cases same : (pair.1 == y) = true
      · rw [if_pos same] at found
        exact Option.some.inj found ▸ here
      · rw [if_neg same] at found
        exact known y w found

theorem substitute_formed {pairs : List (Expr × Expr)} (formed : Formed e)
    (replacements : ∀ pair ∈ pairs, Formed pair.2)
    (run : e.substitute pairs supply = .ok (r, after)) : Formed r := by
  unfold substitute at run
  refine transform_formed formed (fun x rule v s s' formed found values _ below ran => ?_) run
  simp only [Rules.onEach, if_pos (kind_listed x.kind)] at found
  cases found
  have known := replacement_formed (∅ : Memo Expr) replacements (fun x v found => by simp at found) x
  generalize same : (pairs.foldl (fun map pair => map.insert pair.1 pair.2) (∅ : Memo Expr))[x]? =
    present at known
  simp only [same] at ran
  cases present with
  | some replacement =>
      obtain ⟨rfl, _⟩ := (Fresh.pure_ok _ _).mp ran
      exact known _ rfl
  | none => exact reuse_formed formed below ran

theorem substitute_kind_formed {kind : Kind} {replacement : Expr} (formed : Formed e)
    (given : Formed replacement) (run : e.substituteKind kind replacement supply = .ok (r, after)) :
    Formed r := by
  refine transform_formed formed (fun x rule v s s' formed found values _ below ran => ?_) run
  simp only [Rules.on, Rules.onEach, Rules.reusing, if_pos (kind_listed x.kind)] at found
  by_cases chosen : x.kind ∈ [kind]
  · rw [if_pos chosen] at found
    cases found
    obtain ⟨rfl, _⟩ := (Fresh.pure_ok _ _).mp ran
    exact given
  · rw [if_neg chosen] at found
    cases found
    exact reuse_formed formed below ran

/-- The names given so far are formed. -/
def NamesFormed (_ : Unit) (names : Names) (_ : Supply) : Prop :=
  ∀ x v : Expr, names[x]? = some v → Formed v

theorem label_keeps_formed {name : Label} {before : Expr} {names : Names}
    (start : NamesFormed () names supply) (formed : Formed v) :
    Ends False (Marking.label name before v names supply) fun result =>
      ∃ w : Unit, () ≤ w ∧ Formed result.1.1 ∧ NamesFormed w result.1.2 result.2 := by
  refine Marking.label_ends.mpr ?_
  split
  · exact id
  · rename_i kind
    have named : Formed (.labelled name v) := .labelled kind formed
    refine ⟨(), le_refl _, named, fun y w found => ?_⟩
    rw [Std.HashMap.getElem?_insert, Std.HashMap.getElem?_insert] at found
    split at found
    · exact Option.some.inj found ▸ named
    · split at found
      · exact Option.some.inj found ▸ named
      · exact start y w found

theorem mark_upkeep (formed : Formed e) (duplications : Std.HashSet Expr) :
    Upkeep (Marking.rules duplications) e False (fun (_ : Unit) _ v => Formed v) NamesFormed where
  grows _ kept := kept
  alike _ _ _ _ kept := kept
  rule {w names supply x values} inside below start := by
    have formed := formed.within inside
    have given : ∀ v ∈ values, Formed v := fun v member =>
      have ⟨_, _, kept⟩ := pairs_member below member
      kept
    by_cases plain : x.kind = .labelled
    · rw [plain]
      refine ⟨_, Marking.rule_labelled duplications, ?_⟩
      cases x with
      | terminal data => cases data <;> cases plain
      | node op => cases op <;> cases plain
      | labelled label body =>
          obtain ⟨v, rfl, kept⟩ := pairs_one below
          refine Marking.labelled_ends (fun _ => label_keeps_formed start kept) ?_
            fun _ _ _ => ⟨w, le_refl w, kept, start⟩
          intro inner rewritten same _
          subst same
          exact label_keeps_formed start (kept.operand List.mem_cons_self)
    · cases unnamed : x.kind.isUnnamed with
      | true => exact ⟨_, Marking.rule_unnamed duplications unnamed, w, le_refl w, formed, start⟩
      | false =>
          refine ⟨_, Marking.rule_node duplications unnamed plain, Marking.node_ends.mpr ?_⟩
          cases found : names[x]? with
          | some named => exact ⟨w, le_refl w, start x named found, start⟩
          | none =>
              cases run : x.reuse values supply with
              | error err => exact id
              | ok result =>
                  have kept := reuse_formed formed given run
                  show if _ then _ else _
                  split
                  · exact label_keeps_formed start kept
                  · exact ⟨w, le_refl w, kept, start⟩

theorem mark_formed (formed : Formed e) (run : e.markDuplications supply = .ok (r, after)) :
    Formed r := by
  have start : NamesFormed () ∅ supply := fun x v found => by simp at found
  have ends := transform_ends (mark_upkeep formed e.duplications) start
  obtain ⟨_, ran⟩ := run_state_ok run
  obtain ⟨_, _, kept, _⟩ := ends.of_ok ran
  exact kept

/-- The bodies stripped so far are formed. -/
def BodiesFormed (_ : Unit) (bodies : StrippedBodies) (_ : Supply) : Prop :=
  ∀ label body, bodies.lookup label = some body → Formed body

theorem strip_keeps_formed (formed : Formed e) :
    Upkeep stripRules e False (fun (_ : Unit) _ v => Formed v) BodiesFormed where
  grows _ kept := kept
  alike _ _ _ _ kept := kept
  rule {w bodies supply x values} inside below start := by
    have formed := formed.within inside
    have given : ∀ v ∈ values, Formed v := fun v member => by
      obtain ⟨_, _, kept⟩ := pairs_member below member
      exact kept
    by_cases plain : x.kind = .labelled
    · rw [plain]
      refine ⟨_, strip_rule_labelled, ?_⟩
      cases x with
      | terminal data => cases data <;> cases plain
      | node op => cases op <;> cases plain
      | labelled label body =>
          obtain ⟨v, rfl, kept⟩ := pairs_one below
          refine strip_label_ends (fun first found => ?_) fun _ => ?_
          · exact ⟨w, le_refl w, start label first found, start⟩
          · refine ⟨w, le_refl w, kept, fun other first found => ?_⟩
            have found : ((label, v) :: bodies).lookup other = some first := found
            rw [List.lookup_cons] at found
            split at found
            · exact Option.some.inj found ▸ kept
            · exact start other first found
    · refine ⟨_, strip_rule_other plain, ends_bind.mpr ?_⟩
      show Ends _ (x.reuse values supply) _
      cases run : x.reuse values supply with
      | error err => exact id
      | ok result => exact ⟨w, le_refl w, reuse_formed formed given run, start⟩

theorem strip_formed (formed : Formed e) (run : e.stripLabels supply = .ok (r, after)) :
    Formed r := by
  have start : BodiesFormed () [] supply := nofun
  have ends := transform_ends (strip_keeps_formed formed) start
  rw [strip_labels_transform] at run
  obtain ⟨_, ran⟩ := run_state_ok run
  obtain ⟨_, _, kept, _⟩ := ends.of_ok ran
  exact kept

end Passes

/-- Everything that can be made with the constructors, the arithmetic, the closed forms and the
passes, in any order and with any supply of indices and labels. -/
inductive Obtainable : Expr → Prop
  | terminal (data : Terminal) : Obtainable (.terminal data)
  | operand {o e : Expr} : Obtainable e → o ∈ e.operands → Obtainable o
  /-- The constructor of an operator. -/
  | build {op : Operator} {operands : List Expr} {e : Expr} {supply after : Supply} :
      (∀ o ∈ operands, Obtainable o) → op.build operands supply = .ok (e, after) → Obtainable e
  | label {label : Label} {body e : Expr} : Obtainable body → withLabel label body = .ok e →
      Obtainable e
  | neg {a e : Expr} {supply after : Supply} : Obtainable a → a.neg supply = .ok (e, after) →
      Obtainable e
  | sub {a b e : Expr} {supply after : Supply} : Obtainable a → Obtainable b →
      a.sub b supply = .ok (e, after) → Obtainable e
  | mul {a b e : Expr} {supply after : Supply} : Obtainable a → Obtainable b →
      a.mul b supply = .ok (e, after) → Obtainable e
  | divide {a b e : Expr} {supply after : Supply} : Obtainable a → Obtainable b →
      a.divide b supply = .ok (e, after) → Obtainable e
  | index {a e : Expr} {items : List IndexItem} : Obtainable a → a.index items = .ok e →
      Obtainable e
  | component {a e : Expr} {position : Component} : Obtainable a → a.component position = .ok e →
      Obtainable e
  | vector {entries : List Expr} {e : Expr} : (∀ o ∈ entries, Obtainable o) →
      Expr.vector entries = .ok e → Obtainable e
  | matrix {rows : List (List Expr)} {e : Expr} : (∀ row ∈ rows, ∀ o ∈ row, Obtainable o) →
      Expr.matrix rows = .ok e → Obtainable e
  | crossFormula {a b e : Expr} : Obtainable a → Obtainable b → a.crossFormula b = .ok e →
      Obtainable e
  | determinantFormula {a e : Expr} {supply after : Supply} : Obtainable a →
      a.determinantFormula supply = .ok (e, after) → Obtainable e
  | pseudoDeterminantFormula {a e : Expr} {supply after : Supply} : Obtainable a →
      a.pseudoDeterminantFormula supply = .ok (e, after) → Obtainable e
  | inverseFormula {a e : Expr} {supply after : Supply} : Obtainable a →
      a.inverseFormula supply = .ok (e, after) → Obtainable e
  | pseudoInverseFormula {a e : Expr} {supply after : Supply} : Obtainable a →
      a.pseudoInverseFormula supply = .ok (e, after) → Obtainable e
  | adjugateFormula {a e : Expr} : Obtainable a → a.adjugateFormula = .ok e → Obtainable e
  | cofactorFormula {a e : Expr} : Obtainable a → a.cofactorFormula = .ok e → Obtainable e
  | deviatoricFormula {a e : Expr} : Obtainable a → a.deviatoricFormula = .ok e → Obtainable e
  | reconstruct {x e : Expr} {operands : List Expr} {supply after : Supply} : Obtainable x →
      (∀ o ∈ operands, Obtainable o) → x.reconstruct operands supply = .ok (e, after) →
      Obtainable e
  | reuse {x e : Expr} {operands : List Expr} {supply after : Supply} : Obtainable x →
      (∀ o ∈ operands, Obtainable o) → x.reuse operands supply = .ok (e, after) → Obtainable e
  | lower {x e : Expr} {supply after : Supply} : Obtainable x → x.lower supply = .ok (e, after) →
      Obtainable e
  | expand {x e : Expr} : Obtainable x → x.expand = .ok e → Obtainable e
  | purge {x e : Expr} : Obtainable x → x.purgeListTensors = .ok e → Obtainable e
  | mark {x e : Expr} {supply after : Supply} : Obtainable x →
      x.markDuplications supply = .ok (e, after) → Obtainable e
  | strip {x e : Expr} {supply after : Supply} : Obtainable x →
      x.stripLabels supply = .ok (e, after) → Obtainable e
  | substitute {x e : Expr} {pairs : List (Expr × Expr)} {supply after : Supply} : Obtainable x →
      (∀ pair ∈ pairs, Obtainable pair.2) → x.substitute pairs supply = .ok (e, after) →
      Obtainable e
  | substituteKind {x y e : Expr} {kind : Kind} {supply after : Supply} : Obtainable x →
      Obtainable y → x.substituteKind kind y supply = .ok (e, after) → Obtainable e

theorem Obtainable.formed (made : Obtainable e) : Formed e := by
  have stable := formed_stable
  induction made with
  | terminal data => exact .terminal data
  | operand _ member ih => exact ih.operand member
  | build _ run ih => exact build_formed ih run
  | label _ run ih => exact label_formed ih run
  | neg _ run ih => exact stable.neg ih run
  | sub _ _ run left right => exact stable.sub left right run
  | mul _ _ run left right => exact stable.mul left right run
  | divide _ _ run left right => exact stable.divide left right run
  | index _ run ih => exact stable.index ih run
  | component _ run ih => exact stable.component ih run
  | vector _ run ih => exact stable.vector ih run
  | matrix _ run ih => exact stable.matrix ih run
  | crossFormula _ _ run left right => exact stable.cross_formula left right run
  | determinantFormula _ run ih => exact stable.determinant_formula ih run
  | pseudoDeterminantFormula _ run ih => exact stable.pseudo_determinant ih run
  | inverseFormula _ run ih => exact stable.inverse_formula ih run
  | pseudoInverseFormula _ run ih => exact stable.pseudo_inverse ih run
  | adjugateFormula _ run ih => exact stable.uses_table ih (adjugate_formula_cases run)
  | cofactorFormula _ run ih => exact stable.uses_table ih (cofactor_formula_cases run)
  | deviatoricFormula _ run ih => exact stable.deviatoric_formula ih run
  | reconstruct _ _ run ih below => exact reconstruct_formed ih below run
  | reuse _ _ run ih below => exact reuse_formed ih below run
  | lower _ run ih => exact lower_formed ih run
  | expand _ run ih => exact expand_formed ih run
  | purge _ run ih =>
      unfold purgeListTensors at run
      split at run
      · exact expand_formed ih run
      · exact Except.ok.inj run ▸ ih
  | mark _ run ih => exact mark_formed ih run
  | strip _ run ih => exact strip_formed ih run
  | substitute _ _ run ih replacements => exact substitute_formed ih replacements run
  | substituteKind _ _ run ih replacement => exact substitute_kind_formed ih replacement run

/-- Every node of an expression that can be obtained obeys the typing rule of its operator. -/
theorem obtainable_obeys {x e : Expr} (made : Obtainable e) (inside : Within x e) : Obeys x :=
  (made.formed.within inside).obeys

/-- An entry of a matrix, in the determinant written out. -/
theorem minor_entry_obeys : Obtainable sampleMinor ∧ Within (sampleEntry 0 1) sampleMinor ∧
    Obeys (sampleEntry 0 1) := by
  have matrix : Obtainable sampleMatrix := .terminal _
  have made : Operator.determinant.build [sampleMatrix] {} = .ok (sampleDeterminant, {}) := rfl
  have determinant : Obtainable sampleDeterminant :=
    .build (List.forall_mem_singleton.mpr matrix) made
  have minor : Obtainable sampleMinor := .lower determinant sample_determinant_lowered
  have inside : Within (sampleEntry 0 1) sampleMinor :=
    .step List.mem_cons_self (.step (List.mem_cons_of_mem _ List.mem_cons_self)
      (.operand List.mem_cons_self))
  exact ⟨minor, inside, obtainable_obeys minor inside⟩

end Expr

end FormCalculus
