import Mathlib
import MiddleEnd.Proofs.Knf.Binders
import MiddleEnd.Proofs.Knf.Typing

/-! # Improvement preserves types

Improved code is typed beside the code that it improves.  A context that is right
about the types of names before and after the change stays right after each way of
binding names; from this, typing follows the rules of `Improves`.  So the type of a
program is kept by every pass of every round.
-/

namespace MiddleEnd

theorem Scope.get?_bindAll_zip {α : Type} (s : Scope α) (bindings : List (Name × α)) :
    (s.bindEach ((bindings.map (·.1)).zip (bindings.map (·.2)))).get? =
      (s.bindAll bindings).get? := by
  have same : (bindings.map (·.1)).zip (bindings.map (·.2)) = bindings := by
    rw [List.zip_map', List.map_id']
  rw [same, Scope.get?_bindEach]

theorem Scope.get?_bindEach_append {α : Type} (s : Scope α) (bs cs : List (Name × α)) :
    (s.bindEach (bs ++ cs)).get? = ((s.bindAll bs).bindEach cs).get? := by
  have split : s.bindEach (bs ++ cs) = (s.bindEach bs).bindEach cs := List.foldl_append
  funext x
  rw [split, Scope.get?_bindEach, Scope.get?_bindEach, Scope.get?_bindAll, Scope.get?_bindAll,
    Scope.get?_bindEach]

namespace Knf

theorem HasType.congr {externals : Signature} {Γ Δ : Scope Mono} {e : Knf} {τ : Mono}
    (h : e.HasType externals Γ τ) (same : Γ.get? = Δ.get?) : e.HasType externals Δ τ :=
  h.of_agrees fun _ _ _ hx => same ▸ hx

/-- The context describes the types of names before and after the change. -/
structure Context.Types (externals : Signature) (Φ : Context) (Γ Γ' : Scope Mono) : Prop where
  before : ∀ {x τ}, Γ.get? x = some τ → Φ.before x
  after : ∀ {x τ}, Γ'.get? x = some τ → Φ.after x
  fact : ∀ {x o τ}, Φ.fact x o → Γ.get? x = some τ → o.HasType externals Γ' τ
  function : ∀ {f formals body bound τ}, Φ.function f formals body bound → Γ.get? f = some τ →
    ∃ (outer : Scope Mono) (τs : List Mono) (υ : Mono), τ = .fn τs υ ∧ bound f ∧
      formals.length = τs.length ∧
      body.HasType externals ((outer.bind f τ).bindEach (formals.zip τs)) υ ∧
      ∀ a σ, outer.get? a = some σ → bound a ∧ (a ≠ f → Γ.get? a = some σ)

namespace Context.Types

variable {externals : Signature} {Φ : Context} {Γ Γ' : Scope Mono} {x y : Name} {τ : Mono}

theorem start : Context.start.Types externals .empty .empty :=
  ⟨fun h => by simp at h, fun h => by simp at h, fun h => h.elim, fun h => h.elim⟩

theorem congr {Δ Δ' : Scope Mono} (h : Φ.Types externals Γ Γ') (same : Γ.get? = Δ.get?)
    (same' : Γ'.get? = Δ'.get?) : Φ.Types externals Δ Δ' := by
  constructor
  · exact fun hx => h.before (same ▸ hx)
  · exact fun hx => h.after (same' ▸ hx)
  · exact fun hf hx => (h.fact hf (same ▸ hx)).of_agrees fun _ _ _ hy => same' ▸ hy
  · exact fun hf hx => same ▸ h.function hf (same ▸ hx)

/-- A name may be replaced by what it means. -/
theorem means (h : Φ.Types externals Γ Γ') {o : Op} (hm : Φ.Means x o)
    (hx : Γ.get? x = some τ) : o.HasType externals Γ' τ :=
  h.fact (hm (h.before hx)) hx

theorem name (h : Φ.Types externals Γ Γ') (hm : Φ.Means x (.var y)) (hx : Γ.get? x = some τ) :
    Γ'.get? y = some τ := by
  cases h.means hm hx with
  | var hy => exact hy

theorem names (h : Φ.Types externals Γ Γ') {xs xs' : List Name} {τs : List Mono}
    (hm : List.Forall₂ (fun x x' => Φ.Means x (.var x')) xs xs') (hxs : Γ.HasTypes xs τs) :
    Γ'.HasTypes xs' τs := by
  induction hm generalizing τs with
  | nil =>
      cases hxs
      exact .nil
  | cons head _ ih =>
      cases hxs with
      | cons hx hxs => exact .cons (h.name head hx) (ih hxs)

theorem bindBefore (h : Φ.Types externals Γ Γ') (x : Name) (τ : Mono) :
    (Φ.bindBefore x).Types externals (Γ.bind x τ) Γ' := by
  constructor
  · intro a σ ha
    rw [Scope.get?_bind] at ha
    split at ha
    case isTrue eq => exact .inl eq
    case isFalse => exact .inr (h.before ha)
  · exact h.after
  · rintro a o σ ⟨ne, hf⟩ ha
    rw [Scope.get?_bind, if_neg ne] at ha
    exact h.fact hf ha
  · rintro f formals body bound σ ⟨hf, ne, free⟩ hσ
    rw [Scope.get?_bind, if_neg ne] at hσ
    obtain ⟨outer, τs, υ, eq, hbound, length, typed, inner⟩ := h.function hf hσ
    refine ⟨outer, τs, υ, eq, hbound, length, typed, fun a ω ha => ?_⟩
    obtain ⟨ha', same⟩ := inner a ω ha
    refine ⟨ha', fun hne => ?_⟩
    have other : a ≠ x := fun eq => free (eq ▸ ha')
    rw [Scope.get?_bind, if_neg other]
    exact same hne

theorem bindAfter (h : Φ.Types externals Γ Γ') (x : Name) (τ : Mono) :
    (Φ.bindAfter x).Types externals Γ (Γ'.bind x τ) := by
  constructor
  · exact h.before
  · intro a σ ha
    rw [Scope.get?_bind] at ha
    split at ha
    case isTrue eq => exact .inl eq
    case isFalse => exact .inr (h.after ha)
  · rintro a o σ ⟨hf, free⟩ ha
    have typed := h.fact hf ha
    refine typed.of_agrees fun z hz ω hω => ?_
    -- a name that the operation uses has a type, so it is not the new one
    rw [Scope.get?_bind, if_neg]
    · exact hω
    · rintro rfl
      exact free hz (h.after hω)
  · exact h.function

theorem learn (h : Φ.Types externals Γ Γ') {o : Op}
    (hx : ∀ τ, Γ.get? x = some τ → o.HasType externals Γ' τ) :
    (Φ.learn x o).Types externals Γ Γ' := by
  refine ⟨h.before, h.after, ?_, h.function⟩
  rintro a p τ (hf | ⟨rfl, rfl⟩) ha
  · exact h.fact hf ha
  · exact hx τ ha

theorem bindTo (h : Φ.Types externals Γ Γ') (x y : Name) {e : Knf}
    (he : e.HasType externals Γ' τ) :
    (Φ.bindTo x y e).Types externals (Γ.bind x τ) (Γ'.bind y τ) := by
  have known : ((Φ.bindBefore x).learnCode x e).Types externals (Γ.bind x τ) Γ' := by
    unfold learnCode
    split
    case h_1 o =>
        split
        case isTrue =>
            refine (h.bindBefore x τ).learn fun σ hσ => ?_
            obtain rfl : τ = σ := by simpa using hσ
            cases he with
            | op ho => exact ho
        case isFalse => exact h.bindBefore x τ
    case h_2 => exact h.bindBefore x τ
  refine (known.bindAfter y τ).learn fun σ hσ => ?_
  obtain rfl : τ = σ := by simpa using hσ
  exact .var (by simp)

theorem bind (h : Φ.Types externals Γ Γ') (x y : Name) (τ : Mono) :
    (Φ.bind x y).Types externals (Γ.bind x τ) (Γ'.bind y τ) := by
  refine ((h.bindBefore x τ).bindAfter y τ).learn fun σ hσ => ?_
  obtain rfl : τ = σ := by simpa using hσ
  exact .var (by simp)

theorem replace (h : Φ.Types externals Γ Γ') (x : Name) (hy : Γ'.get? y = some τ) :
    (Φ.replace x y).Types externals (Γ.bind x τ) Γ' := by
  refine (h.bindBefore x τ).learn fun σ hσ => ?_
  obtain rfl : τ = σ := by simpa using hσ
  exact .var hy

theorem bindEach (h : Φ.Types externals Γ Γ') {xs ys : List Name} {τs : List Mono}
    (hx : xs.length = τs.length) (hy : ys.length = τs.length) :
    (Φ.bindEach (xs.zip ys)).Types externals (Γ.bindEach (xs.zip τs))
      (Γ'.bindEach (ys.zip τs)) := by
  induction τs generalizing Φ Γ Γ' xs ys with
  | nil =>
      obtain rfl := List.length_eq_zero_iff.mp hx
      obtain rfl := List.length_eq_zero_iff.mp hy
      exact h
  | cons τ τs ih =>
      obtain ⟨x, xs, rfl⟩ := List.exists_cons_of_length_eq_add_one hx
      obtain ⟨y, ys, rfl⟩ := List.exists_cons_of_length_eq_add_one hy
      exact ih (h.bind x y τ) (Nat.succ.inj hx) (Nat.succ.inj hy)

/-- Groups of binders with the same types. -/
theorem bindAll (h : Φ.Types externals Γ Γ') {xs ys : List (Name × Mono)}
    (types : xs.map (·.2) = ys.map (·.2)) :
    (Φ.bindEach ((xs.map (·.1)).zip (ys.map (·.1)))).Types externals (Γ.bindAll xs)
      (Γ'.bindAll ys) := by
  have length : ys.length = xs.length := by simpa using (congrArg List.length types).symm
  have names : (xs.map (·.1)).length = (xs.map (·.2)).length := by simp
  have names' : (ys.map (·.1)).length = (xs.map (·.2)).length := by simpa using length
  refine (h.bindEach names names').congr (Scope.get?_bindAll_zip Γ xs) ?_
  rw [types, Scope.get?_bindAll_zip]

theorem replaceEach (h : Φ.Types externals Γ Γ') (formals : List Name) {ys : List Name}
    {τs : List Mono} (hys : Γ'.HasTypes ys τs) :
    (Φ.replaceEach (formals.zip ys)).Types externals (Γ.bindEach (formals.zip τs)) Γ' := by
  induction hys generalizing Φ Γ formals with
  | nil => simpa [Context.replaceEach, Scope.bindEach] using h
  | cons head _ ih =>
      cases formals with
      | nil => exact h
      | cons x formals => exact ih (h.replace x head) formals

theorem bindBeforeEach (h : Φ.Types externals Γ Γ') (xs : List (Name × Mono)) :
    ((xs.map (·.1)).foldl Context.bindBefore Φ).Types externals (Γ.bindEach xs) Γ' := by
  induction xs generalizing Φ Γ with
  | nil => exact h
  | cons b xs ih => exact ih (h.bindBefore b.1 b.2)

theorem bindAfterEach (h : Φ.Types externals Γ Γ') (ys : List (Name × Mono)) :
    (Φ.bindAfterEach (ys.map (·.1))).Types externals Γ (Γ'.bindEach ys) := by
  induction ys generalizing Φ Γ' with
  | nil => exact h
  | cons b ys ih => exact ih (h.bindAfter b.1 b.2)

theorem define (h : Φ.Types externals Γ Γ') {f g : Name} {formals : List (Name × Mono)}
    {body : Knf} {υ : Mono}
    (typed : body.HasType externals ((Γ.bind f (.fn (formals.map (·.2)) υ)).bindAll formals) υ) :
    (Φ.define f g (formals.map (·.1)) body).Types externals
      (Γ.bind f (.fn (formals.map (·.2)) υ)) (Γ'.bind g (.fn (formals.map (·.2)) υ)) := by
  have bound := h.bind f g (.fn (formals.map (·.2)) υ)
  refine ⟨bound.before, bound.after, bound.fact, ?_⟩
  rintro k fs e names τ (hf | ⟨rfl, rfl, rfl, rfl⟩) hτ
  · exact bound.function hf hτ
  · obtain rfl : Mono.fn (formals.map (·.2)) υ = τ := by simpa using hτ
    refine ⟨Γ, formals.map (·.2), υ, rfl, .inl rfl, by simp, ?_, fun a σ ha => ?_⟩
    · exact typed.congr (Scope.get?_bindAll_zip _ formals).symm
    · refine ⟨.inr (h.before ha), fun ne => ?_⟩
      rw [Scope.get?_bind, if_neg ne]
      exact ha

/-- In the body of a known function, the names in force where it was defined still have
    their types. -/
theorem only (h : Φ.Types externals Γ Γ') {f : Name} {bound : Name → Prop}
    {outer : Scope Mono} (hf : Γ.get? f = some τ) (hbound : bound f)
    (inner : ∀ a σ, outer.get? a = some σ → bound a ∧ (a ≠ f → Γ.get? a = some σ)) :
    (Φ.only bound).Types externals (outer.bind f τ) Γ' := by
  have same : ∀ a σ, (outer.bind f τ).get? a = some σ → bound a ∧ Γ.get? a = some σ := by
    intro a σ ha
    rw [Scope.get?_bind] at ha
    split at ha
    case isTrue eq =>
        subst eq
        exact ⟨hbound, hf.trans ha⟩
    case isFalse ne => exact ⟨(inner a σ ha).1, (inner a σ ha).2 ne⟩
  exact ⟨fun ha => (same _ _ ha).1, h.after, fun hf ha => h.fact hf (same _ _ ha).2,
    fun hf => hf.elim⟩

end Context.Types

/-! ## What each rule does -/

section
variable {externals : Signature} {Φ : Context} {Γ Γ' : Scope Mono} {τ : Mono}

theorem OpImproves.hasType {o o' : Op} (h : OpImproves Φ o o') (types : Φ.Types externals Γ Γ')
    (typed : o.HasType externals Γ τ) : o'.HasType externals Γ' τ := by
  cases h with
  | renamed h => exact typed.map fun x hx _ => types.name (h x hx)
  | known h =>
      cases typed with
      | var hx => exact types.means h hx
  | negateInt => cases typed; exact .int
  | negateFloat => cases typed; exact .float
  | arithInt => cases typed; exact .int
  | arithFloat => cases typed; exact .float

/-- Code that starts with binders has its value in their scope. -/
theorem HasType.hoist {e : Knf} {υ : Mono} (h : e.HasType externals Γ υ) (x : Name) :
    ∃ leading : List (Name × Mono), leading.map (·.1) = e.leading ∧
      ∀ {body τ}, body.HasType externals ((Γ.bindEach leading).bind x υ) τ →
        (Knf.hoist x υ body e).HasType externals Γ τ := by
  induction h with
  | op h => exact ⟨[], rfl, .letIn (.op h)⟩
  | branch hx hy h1 h2 => exact ⟨[], rfl, .letIn (.branch hx hy h1 h2)⟩
  | app hf hxs => exact ⟨[], rfl, .letIn (.app hf hxs)⟩
  | externApp call hxs => exact ⟨[], rfl, .letIn (.externApp call hxs)⟩
  | @letIn Γ y σ e1 e2 υ h1 _ _ ih =>
      obtain ⟨leading, eq, rest⟩ := ih
      exact ⟨(y, σ) :: leading, by simp [Knf.leading, eq], fun typed => .letIn h1 (rest typed)⟩
  | @letRec Γ f formals body rest σ υ h1 _ _ ih =>
      obtain ⟨leading, eq, rest⟩ := ih
      exact ⟨(f, _) :: leading, by simp [Knf.leading, eq], fun typed => .letRec h1 (rest typed)⟩
  | @letTuple Γ pattern y e υ hy _ ih =>
      obtain ⟨leading, eq, rest⟩ := ih
      refine ⟨pattern ++ leading, by simp [Knf.leading, eq], fun {body τ} typed => ?_⟩
      refine .letTuple hy (rest (typed.congr ?_))
      funext a
      rw [Scope.get?_bind, Scope.get?_bind, Scope.get?_bindEach_append]

/-- Binding names one by one to names of the same types, none of which is bound on the way. -/
theorem HasType.letEach {pattern : List (Name × Mono)} {zs : List Name} {e : Knf}
    (length : zs.length = pattern.length) (hzs : Γ.HasTypes zs (pattern.map (·.2)))
    (apart : ∀ b ∈ pattern, ∀ z ∈ zs, b.1 ≠ z)
    (h : e.HasType externals (Γ.bindEach pattern) τ) :
    (Knf.letEach (pattern.zip zs) e).HasType externals Γ τ := by
  induction pattern generalizing Γ zs with
  | nil => exact h
  | cons b pattern ih =>
      obtain ⟨z, zs, rfl⟩ := List.exists_cons_of_length_eq_add_one length
      obtain ⟨hz, rest⟩ := List.forall₂_cons.mp hzs
      refine .letIn (.op (.var hz)) (ih (Nat.succ.inj length) ?_ ?_ h)
      · refine Scope.HasTypes.of_agrees rest fun y hy σ hσ => ?_
        have ne := apart b (List.mem_cons_self ..) y (List.mem_cons_of_mem _ hy)
        rw [Scope.get?_bind, if_neg ne.symm]
        exact hσ
      · exact fun c hc y hy => apart c (List.mem_cons_of_mem _ hc) y (List.mem_cons_of_mem _ hy)

/-- Improved code has the type of the code. -/
theorem Improves.hasType {i : Bool} {e e' : Knf} (h : Improves i Φ e e')
    (types : Φ.Types externals Γ Γ') (typed : e.HasType externals Γ τ) :
    e'.HasType externals Γ' τ := by
  induction h generalizing Γ Γ' τ with
  | op h =>
      cases typed with
      | op ho => exact .op (h.hasType types ho)
  | branch hx hy _ _ ih1 ih2 =>
      cases typed with
      | branch tx ty h1 h2 =>
          exact .branch (types.name hx tx) (types.name hy ty) (ih1 types h1) (ih2 types h2)
  | decided b _ _ ih =>
      cases typed with
      | branch _ _ h1 h2 =>
          cases b with
          | true => exact ih types h1
          | false => exact ih types h2
  | letIn _ _ ih1 ih2 =>
      cases typed with
      | letIn h1 h2 =>
          have first := ih1 types h1
          exact .letIn first (ih2 (types.bindTo _ _ first) h2)
  | copy _ _ ih1 ih2 =>
      cases typed with
      | letIn h1 h2 =>
          cases ih1 types h1 with
          | op first =>
              cases first with
              | var hy => exact ih2 (types.replace _ hy) h2
  | dropLet _ _ ih =>
      cases typed with
      | letIn _ h2 => exact ih (types.bindBefore _ _) h2
  | @hoist i Φ x x' ty e1 e1' e2 e2' _ _ ih1 ih2 =>
      cases typed with
      | letIn h1 h2 =>
          obtain ⟨leading, eq, moved⟩ := (ih1 types h1).hoist x'
          have outer := types.bindAfterEach leading
          rw [eq] at outer
          exact moved (ih2 (outer.bind x x' ty) h2)
  | @letRec i Φ f f' ty formals formals' body body' rest rest' same _ _ ih1 ih2 =>
      cases typed with
      | letRec h1 h2 =>
          have outer := types.define (g := f') h1
          have body := ih1 (outer.bindAll same) h1
          have rest := ih2 outer h2
          rw [same] at body rest ⊢
          exact .letRec body rest
  | dropRec _ ih =>
      cases typed with
      | letRec _ h2 => exact ih (types.bindBefore _ _) h2
  | app hf hxs =>
      cases typed with
      | app tf txs => exact .app (types.name hf tf) (types.names hxs txs)
  | @expand Φ f formals body bound xs xs' e' hf hxs _ ih =>
      cases typed with
      | app tf txs =>
          obtain ⟨outer, τs, υ, eq, hbound, -, inside, inner⟩ := types.function hf tf
          cases eq
          have entered := (types.only tf hbound inner).replaceEach formals (types.names hxs txs)
          exact ih entered inside
  | letTuple same hy _ ih =>
      cases typed with
      | letTuple ty h =>
          rw [same] at ty
          exact .letTuple (types.name hy ty) (ih (types.bindAll same) h)
  | @split i Φ pattern y zs e e' length hy free _ ih =>
      cases typed with
      | letTuple ty h =>
          cases types.means hy ty with
          | tuple hzs =>
              have inside := ih (types.bindAll rfl) h
              refine .letEach length hzs ?_ (inside.congr (Scope.get?_bindEach ..).symm)
              -- the components have types, so no binder of the pattern has their names
              rintro b hb z hz rfl
              obtain ⟨σ, hσ⟩ := Option.isSome_iff_exists.mp (Scope.HasTypes.bound hzs _ hz)
              exact free b hb (types.after hσ)
  | @dropTuple i Φ pattern y e e' _ ih =>
      cases typed with
      | letTuple _ h =>
          exact ih (types.bindBeforeEach pattern) (h.congr (Scope.get?_bindEach ..).symm)
  | externApp hxs =>
      cases typed with
      | externApp call txs => exact .externApp call (types.names hxs txs)

end

/-! ## Every stage -/

section
variable {P : Knf → Prop} (kept : ∀ {e e'}, Improves true .start e e' → P e → P e')
include kept

/-- What improvement keeps holds after every pass of a round. -/
theorem stages_keep {threshold : Nat} {e : Knf} {c : Supply}
    (names : (e.roundBinders threshold c).length ≤ 2 ^ 32) (h : P e) :
    ∀ stage ∈ ((stages (passes threshold) e).run c).1, P stage := by
  have few := length_binders_le names
  have renamed := kept (start_freshened e c few) h
  have copies := kept (start_dropCopies (nodup_freshened few)) renamed
  have flat := kept (start_flatten (nodup_dropCopies few)) copies
  have expanded := kept (start_expanded threshold (nodup_copied names)) flat
  have folded := kept (start_foldConstants (nodup_expanded names)) expanded
  have live := kept (start_dropDead _) folded
  rw [stages_run]
  simp only [List.forall_mem_cons]
  exact ⟨renamed, copies, flat, expanded, folded, live, List.forall_mem_nil _⟩

theorem improveStagesWithin_keep (threshold left : Nat) {e : Knf} {c : Supply}
    (names : e.NamesSuffice threshold left c) (h : P e) :
    ∀ stage ∈ ((improveStagesWithin threshold left e).run c).1, P stage := by
  induction left generalizing e c with
  | zero => exact nofun
  | succ left ih =>
      obtain ⟨enough, later⟩ := names
      have first := stages_keep kept enough h
      have last : P ((e.round threshold).run c).1 := by
        refine first _ ?_
        rw [← getLastD_stages, stages_run]
        simp
      rw [run_improveStagesWithin]
      split
      · exact first
      · rename_i unsettled
        rw [List.forall_mem_append]
        exact ⟨first, ih (later (Bool.eq_false_iff.mpr unsettled)) last⟩

/-- What improvement keeps holds after every pass of every round. -/
theorem improveStages_keep {options : Options} {e : Knf} {c : Supply}
    (names : e.EnoughNames options c) (h : P e) :
    ∀ stage ∈ ((e.improveStages options).run c).1, P stage := by
  have renamed := kept (start_freshened e c names.1) h
  rw [run_improveStages, List.forall_mem_cons]
  exact ⟨renamed, improveStagesWithin_keep kept _ _ names.2 renamed⟩

end

section
variable {externals : Signature} {options : Options} {e : Knf} {τ : Mono} {c : Supply}

theorem HasType.improveStages (typed : e.HasType externals .empty τ)
    (names : e.EnoughNames options c) :
    ∀ stage ∈ ((e.improveStages options).run c).1, stage.HasType externals .empty τ :=
  improveStages_keep (fun improves => improves.hasType .start) names typed

theorem HasType.improve (typed : e.HasType externals .empty τ)
    (names : e.EnoughNames options c) :
    ((e.improve options).run c).1.code.HasType externals .empty τ :=
  typed.improveStages names _ (List.mem_of_getLast? (improveStages_spec options e c).1)

end

/-- The improvement of code preserves types: code that has a type where no name is bound is
    improved, with all options, to closed code of the same type.  So is the code after each
    pass of every round: the stages of the improvement, the renamed code and six in a
    round, are closed and have the type, and the last of them is the improved code. -/
theorem improve_preserves_types (externals : Signature) (options : Options) (e : Knf) (τ : Mono)
    (c : Supply) (typed : e.HasType externals .empty τ) (names : e.EnoughNames options c) :
    (((e.improve options).run c).1.code.freeVars = [] ∧
        ((e.improve options).run c).1.code.HasType externals .empty τ) ∧
      (∀ stage ∈ ((e.improveStages options).run c).1,
        stage.freeVars = [] ∧ stage.HasType externals .empty τ) ∧
      ((e.improveStages options).run c).1.getLast? = some ((e.improve options).run c).1.code ∧
      ((e.improveStages options).run c).1.length = 1 + 6 * ((e.improve options).run c).1.rounds ∧
      ((e.improveStages options).run c).2 = ((e.improve options).run c).2 := by
  have improved := typed.improve names
  have stages := typed.improveStages names
  refine ⟨⟨improved.closed, improved⟩, ?_, improveStages_spec options e c⟩
  intro stage mem
  exact ⟨(stages stage mem).closed, stages stage mem⟩

/-- Code with a function that is expanded, tuples that are taken apart and a test of a truth
    value that is decided. -/
def handingOver : Knf :=
  .letRec "swap" (.fn [.tuple [.int, .bool]] (.tuple [.bool, .int])) [("p", .tuple [.int, .bool])]
    (.letTuple [("a", .int), ("b", .bool)] "p" (.op (.tuple ["b", "a"])))
    (.letIn "n" .int (.op (.int 41))
      (.letIn "flag" .bool (.op (.int 1))
        (.letIn "pair" (.tuple [.int, .bool]) (.op (.tuple ["n", "flag"]))
          (.letIn "q" (.tuple [.bool, .int]) (.app "swap" ["pair"])
            (.letTuple [("b", .bool), ("m", .int)] "q"
              (.letIn "zero" .bool (.op (.int 0))
                (.branch .eq "b" "zero" (.op .unit) (.externApp "print_int" ["m"]))))))))

theorem handingOver_hasType :
    handingOver.HasType [("print_int", .fn [.int] .unit)] .empty .unit := by
  have print : Signature.Calls [("print_int", .fn [.int] .unit)] "print_int" [.int] .unit :=
    @Signature.Calls.listed _ _ [.int] .unit rfl
  refine @HasType.letRec _ _ _ [("p", .tuple [.int, .bool])] _ _ _ _ ?_ ?_
  · exact .letTuple rfl (.op (.tuple (.cons rfl (.cons rfl .nil))))
  · refine .letIn (.op .int) (.letIn (.op (.bool true)) ?_)
    refine .letIn (.op (.tuple (.cons rfl (.cons rfl .nil)))) ?_
    refine .letIn (.app rfl (.cons rfl .nil)) (.letTuple rfl (.letIn (.op (.bool false)) ?_))
    exact .branch rfl rfl (.op .unit) (.externApp print (.cons rfl .nil))

theorem improve_handingOver :
    handingOver.HasType [("print_int", .fn [.int] .unit)] .empty .unit ∧
      handingOver.EnoughNames {} ⟨4294967290⟩ ∧
      (((handingOver.improve {}).run ⟨4294967290⟩).1.code.freeVars = [] ∧
        ((handingOver.improve {}).run ⟨4294967290⟩).1.code.HasType
          [("print_int", .fn [.int] .unit)] .empty .unit) := by
  have names : handingOver.EnoughNames {} ⟨4294967290⟩ := by decide +kernel
  exact ⟨handingOver_hasType, names,
    (improve_preserves_types [("print_int", .fn [.int] .unit)] {} handingOver .unit ⟨4294967290⟩
      handingOver_hasType names).1⟩

end Knf

end MiddleEnd
