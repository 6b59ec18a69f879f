import Mathlib
import MiddleEnd.Proofs.Knf.FreeNames
import MiddleEnd.Proofs.Knf.Stability

/-! # Rounds without expansion converge

Where no calls are expanded the rounds always settle.  Code has a weight that no pass
increases and that a pass keeps only by changing nothing; so after a number of rounds that the
weight bounds there is one that changes nothing but names.
-/

namespace MiddleEnd.Knf

/-! ## Weight -/

/-- What an operation weighs: folding replaces it by a known one, which is lighter. -/
def opWeight (o : Op) : Nat :=
  if o.isKnown then 1 else 2

/-- What code weighs.  Bound code counts twice, so that it is worth moving a binder out of it,
    and a pattern counts for more than the bindings of its names one by one. -/
def weight : Knf → Nat
  | .op o => opWeight o
  | .branch _ _ _ e1 e2 => 1 + e1.weight + e2.weight
  | .letIn _ _ e1 e2 => 1 + 2 * e1.weight + e2.weight
  | .letRec _ _ _ body rest => 1 + body.weight + rest.weight
  | .app _ _ | .externApp _ _ => 1
  | .letTuple pattern _ e => 1 + 5 * pattern.length + e.weight

section
variable (test : Test) (x y : Name) (ty : Mono) (bs : List (Name × Mono)) (e1 e2 : Knf)

theorem weight_branch : (branch test x y e1 e2).weight = 1 + e1.weight + e2.weight := rfl

theorem weight_letIn : (letIn x ty e1 e2).weight = 1 + 2 * e1.weight + e2.weight := rfl

theorem weight_letRec : (letRec x ty bs e1 e2).weight = 1 + e1.weight + e2.weight := rfl

theorem weight_letTuple : (letTuple bs x e1).weight = 1 + 5 * bs.length + e1.weight := rfl

end

theorem weight_pos (e : Knf) : 0 < e.weight := by
  cases e with
  | op o =>
      change 0 < opWeight o
      rw [opWeight]
      split <;> decide
  | app | externApp => exact Nat.one_pos
  | branch => rw [weight_branch]; omega
  | letIn => rw [weight_letIn]; omega
  | letRec => rw [weight_letRec]; omega
  | letTuple => rw [weight_letTuple]; omega

theorem opWeight_map (f : Name → Name) (o : Op) : opWeight (o.map f) = opWeight o := by
  rw [opWeight, Op.isKnown_map, ← opWeight]

theorem weight_relabel (σ : Name → Name) (e : Knf) : (e.relabel σ).weight = e.weight := by
  induction e with
  | op o => exact opWeight_map σ o
  | app | externApp => rfl
  | branch test x y e1 e2 ih1 ih2 => rw [relabel, weight_branch, weight_branch, ih1, ih2]
  | letIn x ty e1 e2 ih1 ih2 => rw [relabel, weight_letIn, weight_letIn, ih1, ih2]
  | letRec f ty formals body rest ih1 ih2 =>
      rw [relabel, weight_letRec, weight_letRec, ih1, ih2]
  | letTuple pattern y e ih =>
      rw [relabel, weight_letTuple, weight_letTuple, ih, List.length_map]

theorem weight_freshened (s : Scope Name) (c : Supply) (e : Knf) :
    (e.freshened s c).weight = e.weight := by
  induction e generalizing s c with
  | op o => exact opWeight_map _ o
  | app | externApp => rfl
  | branch test x y e1 e2 ih1 ih2 => rw [freshened, weight_branch, weight_branch, ih1, ih2]
  | letIn x ty e1 e2 ih1 ih2 => rw [freshened, weight_letIn, weight_letIn, ih1, ih2]
  | letRec f ty formals body rest ih1 ih2 =>
      rw [freshened, weight_letRec, weight_letRec, ih1, ih2]
  | letTuple pattern y e ih =>
      rw [freshened, weight_letTuple, weight_letTuple, ih, drawEach, List.length_zip,
        Supply.length_names, List.length_map, List.length_map, min_self]

theorem weight_eq {a b : Knf} {p : Pairing} (same : a.alphaEqIn p b = true) :
    a.weight = b.weight := by
  rw [← weight_relabel (fun _ => "") a, ← weight_relabel (fun _ => "") b]
  exact congrArg weight (shape_eq same)

/-- The second code is the first or lighter. -/
def Lightens (e e' : Knf) : Prop :=
  e' = e ∨ e'.weight < e.weight

namespace Lightens

variable {e e' e'' e1 e1' e2 e2' : Knf}

theorem refl (e : Knf) : Lightens e e := .inl rfl

theorem le (h : Lightens e e') : e'.weight ≤ e.weight := by
  rcases h with rfl | lighter
  · exact le_rfl
  · exact lighter.le

theorem trans (h : Lightens e e') (h' : Lightens e' e'') : Lightens e e'' := by
  rcases h with rfl | lighter
  · exact h'
  · exact .inr (lt_of_le_of_lt h'.le lighter)

theorem branch (test : Test) (x y : Name) (h1 : Lightens e1 e1') (h2 : Lightens e2 e2') :
    Lightens (.branch test x y e1 e2) (.branch test x y e1' e2') := by
  rcases h1 with rfl | h1 <;> rcases h2 with rfl | h2
  · exact .refl _
  all_goals
    right
    rw [weight_branch, weight_branch]
    omega

theorem letIn (x : Name) (ty : Mono) (h1 : Lightens e1 e1') (h2 : Lightens e2 e2') :
    Lightens (.letIn x ty e1 e2) (.letIn x ty e1' e2') := by
  rcases h1 with rfl | h1 <;> rcases h2 with rfl | h2
  · exact .refl _
  all_goals
    right
    rw [weight_letIn, weight_letIn]
    omega

theorem letRec (f : Name) (ty : Mono) (formals : List (Name × Mono)) (h1 : Lightens e1 e1')
    (h2 : Lightens e2 e2') : Lightens (.letRec f ty formals e1 e2) (.letRec f ty formals e1' e2') := by
  rcases h1 with rfl | h1 <;> rcases h2 with rfl | h2
  · exact .refl _
  all_goals
    right
    rw [weight_letRec, weight_letRec]
    omega

theorem letTuple (pattern : List (Name × Mono)) (y : Name) (h : Lightens e e') :
    Lightens (.letTuple pattern y e) (.letTuple pattern y e') := by
  rcases h with rfl | h
  · exact .refl _
  · right
    rw [weight_letTuple, weight_letTuple]
    omega

end Lightens

/-! ## No pass makes code heavier -/

theorem weight_dropCopiesIn_le (s : Scope Name) (e : Knf) :
    (e.dropCopiesIn s).weight ≤ e.weight := by
  induction e generalizing s with
  | op o => exact (opWeight_map _ o).le
  | app | externApp => exact le_rfl
  | letIn x ty e1 e2 ih1 ih2 =>
      simp only [dropCopiesIn]
      split
      case h_1 y _ =>
        have body := ih2 (s.bind x y)
        rw [weight_letIn]
        omega
      case h_2 =>
        have bound := ih1 s
        have body := ih2 s
        rw [weight_letIn, weight_letIn]
        omega
  | branch test x y e1 e2 ih1 ih2 =>
      have yes := ih1 s
      have no := ih2 s
      rw [dropCopiesIn, weight_branch, weight_branch]
      omega
  | letRec f ty formals body rest ih1 ih2 =>
      have inBody := ih1 s
      have inRest := ih2 s
      rw [dropCopiesIn, weight_letRec, weight_letRec]
      omega
  | letTuple pattern y e ih =>
      have body := ih s
      rw [dropCopiesIn, weight_letTuple, weight_letTuple]
      omega

theorem lightens_dropCopies (e : Knf) : Lightens e e.dropCopies := by
  induction e with
  | op o => exact .inl (congrArg Knf.op o.map_id)
  | app f xs => exact .inl (congrArg (Knf.app f) xs.map_id)
  | externApp f xs => exact .inl (congrArg (Knf.externApp f) xs.map_id)
  | branch test x y e1 e2 ih1 ih2 => exact ih1.branch test x y ih2
  | letIn x ty e1 e2 ih1 ih2 =>
      simp only [dropCopies, dropCopiesIn]
      split
      case h_1 y _ =>
        right
        have body := weight_dropCopiesIn_le (Scope.empty.bind x y) e2
        rw [weight_letIn]
        omega
      case h_2 => exact ih1.letIn x ty ih2
  | letRec f ty formals body rest ih1 ih2 => exact ih1.letRec f ty formals ih2
  | letTuple pattern y e ih => exact ih.letTuple pattern y

theorem lightens_hoist (x : Name) (ty : Mono) (body e : Knf) :
    Lightens (.letIn x ty e body) (hoist x ty body e) := by
  induction e with
  | op | branch | app | externApp => exact .refl _
  | letIn y u e1 e2 _ ih =>
      have inner := ih.le
      rw [weight_letIn] at inner
      right
      rw [hoist, weight_letIn, weight_letIn, weight_letIn]
      omega
  | letRec f u formals e1 e2 _ ih =>
      have inner := ih.le
      rw [weight_letIn] at inner
      right
      rw [hoist, weight_letRec, weight_letIn, weight_letRec]
      omega
  | letTuple pattern z e ih =>
      have inner := ih.le
      rw [weight_letIn] at inner
      right
      rw [hoist, weight_letTuple, weight_letIn, weight_letTuple]
      omega

theorem lightens_flatten (e : Knf) : Lightens e e.flatten := by
  induction e with
  | op | app | externApp => exact .refl _
  | branch test x y e1 e2 ih1 ih2 => exact ih1.branch test x y ih2
  | letIn x ty e1 e2 ih1 ih2 => exact (ih1.letIn x ty ih2).trans (lightens_hoist x ty _ _)
  | letRec f ty formals body rest ih1 ih2 => exact ih1.letRec f ty formals ih2
  | letTuple pattern y e ih => exact ih.letTuple pattern y

section
variable {s : Knowns} (known : ∀ x o, s.get? x = some o → o.isKnown = true)
include known

/-- Folding changes an operation only into a known one. -/
theorem foldOp_eq_or (o : Op) :
    s.foldOp o = o ∨ o.isKnown = false ∧ (s.foldOp o).isKnown = true := by
  cases o with
  | var x =>
      rw [Knowns.foldOp]
      cases found : s.get? x with
      | none => exact .inl rfl
      | some o => exact .inr ⟨rfl, known x o found⟩
  | negate op x =>
      cases op <;> simp only [Knowns.foldOp] <;> split
      all_goals first | exact .inl rfl | exact .inr ⟨rfl, rfl⟩
  | arith op x y =>
      cases op <;> simp only [Knowns.foldOp] <;> split
      all_goals first | exact .inl rfl | exact .inr ⟨rfl, rfl⟩
  | _ => exact .inl rfl

theorem lightens_foldOp (o : Op) : Lightens (.op o) (.op (s.foldOp o)) := by
  rcases foldOp_eq_or known o with eq | ⟨before, after⟩
  · exact .inl (congrArg Knf.op eq)
  · right
    change opWeight (s.foldOp o) < opWeight o
    simp [opWeight, before, after]

theorem known_learn (x : Name) (e : Knf) :
    ∀ u o, (s.learn x e).get? u = some o → o.isKnown = true := by
  intro u o found
  cases e with
  | op o' =>
      simp only [Knowns.learn] at found
      split at found
      case isTrue isKnown =>
        rw [Scope.get?_bind] at found
        split at found
        case isTrue => exact Option.some.inj found ▸ isKnown
        case isFalse => exact known u o found
      case isFalse => exact known u o found
  | _ => exact known u o found

end

theorem weight_letEach {pattern : List (Name × Mono)} {zs : List Name}
    (full : zs.length = pattern.length) (body : Knf) :
    (letEach (pattern.zip zs) body).weight = 5 * pattern.length + body.weight := by
  induction pattern generalizing zs with
  | nil => exact (Nat.zero_add _).symm
  | cons b pattern ih =>
      obtain ⟨z, zs, rfl⟩ := List.exists_cons_of_length_eq_add_one full
      have rest := ih (Nat.succ.inj full)
      have copy : (op (.var z)).weight = 2 := rfl
      rw [List.zip_cons_cons, letEach, weight_letIn, copy, rest, List.length_cons]
      omega

theorem lightens_foldConstantsIn {s : Knowns}
    (known : ∀ x o, s.get? x = some o → o.isKnown = true) (e : Knf) :
    Lightens e (e.foldConstantsIn s) := by
  induction e generalizing s with
  | op o => exact lightens_foldOp known o
  | app | externApp => exact .refl _
  | branch test x y e1 e2 ih1 ih2 =>
      have yes := (ih1 known).le
      have no := (ih2 known).le
      simp only [foldConstantsIn]
      split
      case h_3 => exact (ih1 known).branch test x y (ih2 known)
      all_goals
        right
        rw [weight_branch]
        omega
  | letIn x ty e1 e2 ih1 ih2 => exact (ih1 known).letIn x ty (ih2 (known_learn known x _))
  | letRec f ty formals body rest ih1 ih2 => exact (ih1 known).letRec f ty formals (ih2 known)
  | letTuple pattern y e ih =>
      have body := (ih known).le
      simp only [foldConstantsIn]
      split
      case h_1 zs _ =>
        split
        case isTrue full =>
          right
          rw [weight_letEach full, weight_letTuple]
          omega
        case isFalse => exact (ih known).letTuple pattern y
      case h_2 => exact (ih known).letTuple pattern y

theorem lightens_foldConstants (e : Knf) : Lightens e e.foldConstants :=
  lightens_foldConstantsIn (fun _ _ found => by cases found) e

theorem lightens_dropDead (e : Knf) : Lightens e e.dropDead := by
  induction e with
  | op | app | externApp => exact .refl _
  | branch test x y e1 e2 ih1 ih2 => exact ih1.branch test x y ih2
  | letIn x ty e1 e2 ih1 ih2 =>
      simp only [dropDead]
      split
      case isTrue => exact ih1.letIn x ty ih2
      case isFalse =>
        have body := ih2.le
        right
        rw [weight_letIn]
        omega
  | letRec f ty formals body rest ih1 ih2 =>
      simp only [dropDead]
      split
      case isTrue => exact ih1.letRec f ty formals ih2
      case isFalse =>
        have inRest := ih2.le
        right
        rw [weight_letRec]
        omega
  | letTuple pattern y e ih =>
      simp only [dropDead]
      split
      case isTrue => exact ih.letTuple pattern y
      case isFalse =>
        have body := ih.le
        right
        rw [weight_letTuple]
        omega

/-! ## A round without expansion -/

theorem candidates_zero (s : Scope Candidate) (f : Name) (formals : List (Name × Mono))
    (body : Knf) : candidates 0 s f formals body = s := by
  have size : ¬ body.size ≤ 0 := by
    cases body <;> simp only [size] <;> omega
  rw [candidates, if_neg size]

theorem copiedBinders_zero (e : Knf) : e.copiedBinders 0 .empty = [] := by
  induction e with
  | letRec f ty formals body rest ih1 ih2 =>
      simp only [copiedBinders, candidates_zero, ih1, ih2, List.append_nil]
  | _ => simp_all [copiedBinders]

theorem expanded_zero (e : Knf) (c : Supply) : e.expanded 0 .empty c = e := by
  induction e generalizing c with
  | letRec f ty formals body rest ih1 ih2 => simp only [expanded, candidates_zero, ih1, ih2]
  | _ => simp_all [expanded]

theorem expandCalls_zero_run (e : Knf) (c : Supply) : (e.expandCalls 0).run c = (e, c) := by
  rw [expandCalls, expandCallsIn_run, expanded_zero, copiedBinders_zero, List.length_nil,
    Supply.skip_zero]

theorem round_zero (e : Knf) (c : Supply) :
    ((e.round 0).run c).1 =
      (e.freshened .empty c).dropCopies.flatten.foldConstants.dropDead := by
  rw [round_run, expanded_zero, prepared]

/-- Code that none of the passes changes. -/
structure Normal (e : Knf) : Prop where
  copies : e.dropCopies = e
  flat : e.flatten = e
  calls : ∀ c, (e.expandCalls 0).run c = (e, c)
  folded : e.foldConstants = e
  live : e.dropDead = e

/-- A round without expansion makes code lighter, or it only renames code that no pass
    changes. -/
theorem round_zero_cases (e : Knf) (c : Supply) :
    (((e.round 0).run c).1 = e.freshened .empty c ∧ Normal (e.freshened .empty c)) ∨
      ((e.round 0).run c).1.weight < e.weight := by
  rw [round_zero, ← weight_freshened .empty c e]
  generalize e.freshened .empty c = f
  rcases lightens_dropCopies f with copies | lighter
  case inr =>
    exact .inr ((((lightens_flatten _).trans (lightens_foldConstants _)).trans
      (lightens_dropDead _)).le.trans_lt lighter)
  rw [copies]
  rcases lightens_flatten f with flat | lighter
  case inr =>
    exact .inr (((lightens_foldConstants _).trans (lightens_dropDead _)).le.trans_lt lighter)
  rw [flat]
  rcases lightens_foldConstants f with folded | lighter
  case inr => exact .inr ((lightens_dropDead _).le.trans_lt lighter)
  rw [folded]
  rcases lightens_dropDead f with live | lighter
  case inr => exact .inr lighter
  exact .inl ⟨live, copies, flat, expandCalls_zero_run f, folded, live⟩

theorem closed_freshened {e : Knf} (closed : e.freeVars = []) (c : Supply) :
    (e.freshened .empty c).freeVars = [] :=
  closed_iff.mpr (uses_freshened (closed_iff.mp closed))

theorem closed_round_zero {e : Knf} (closed : e.freeVars = []) (c : Supply) :
    ((e.round 0).run c).1.freeVars = [] := by
  rw [closed_iff, round_zero]
  have renamed := closed_iff.mp (closed_freshened closed c)
  have copies : (e.freshened .empty c).dropCopies.Uses fun _ => False :=
    uses_dropCopiesIn (fun _ _ found => by cases found) renamed
  exact uses_dropDead (uses_foldConstantsIn (fun _ _ found => by cases found) (uses_flatten copies))

theorem binders_round_zero (e : Knf) (c : Supply) :
    ((e.round 0).run c).1.binders ⊆ c.names e.binders := by
  rw [round_zero, ← binders_freshened .empty]
  have copies := (binders_dropCopiesIn .empty (e.freshened .empty c)).subset
  have flat := (binders_flatten (e.freshened .empty c).dropCopies).subset
  have folded := (binders_foldConstantsIn .empty (e.freshened .empty c).dropCopies.flatten).subset
  have live := (binders_dropDead (e.freshened .empty c).dropCopies.flatten.foldConstants).subset
  exact fun x hx => copies (flat (folded (live hx)))

/-! ## Names that come again

Code may bind more names than there are numbers, and then names come twice.  But
renaming code that has just been renamed makes names equal at the same places again.
-/

theorem base_append {b : Name} (hb : b ≠ "") (n : Nat) : Name.base (b ++ "." ++ n.repr) = b := by
  have digits : ∀ d ∈ n.repr.toList.reverse, d.isDigit = true := fun d hd =>
    Name.isDigit_of_mem_repr (List.mem_reverse.mp hd)
  have backwards : (b ++ "." ++ n.repr).toList.reverse =
      n.repr.toList.reverse ++ '.' :: b.toList.reverse := by
    simp
  obtain ⟨d, ds, number⟩ : ∃ d ds, n.repr.toList.reverse = d :: ds :=
    List.exists_cons_of_ne_nil (by simp)
  obtain ⟨c, stem, rest⟩ : ∃ c stem, b.toList.reverse = c :: stem :=
    List.exists_cons_of_ne_nil (by simpa using hb)
  have whole : String.ofList (c :: stem).reverse = b := by
    rw [← rest, List.reverse_reverse, String.ofList_toList]
  simp only [Name.base, backwards]
  rw [List.takeWhile_append_of_pos digits, List.dropWhile_append_of_pos digits, number, rest]
  exact whole

theorem base_ne_empty {x : Name} (hx : x ≠ "") : x.base ≠ "" := by
  simp only [Name.base]
  split
  · simp
  · exact hx

/-- The name that a supply draws for a base, after some number of other draws. -/
def numberedName (c : Supply) (place : Name × UInt32) : Name :=
  place.1 ++ "." ++ (c.count + place.2).toNat.repr

theorem numberedName_injective (c : Supply) : (numberedName c).Injective := by
  rintro ⟨b, k⟩ ⟨b', k'⟩ eq
  have count := Name.eq_of_append_repr_eq (c := '.') (d := '.') rfl rfl eq
  simp only [numberedName, count] at eq
  have base : b = b' := by simpa using eq
  have place : k = k' := by rwa [UInt32.toNat_inj, UInt32.add_right_inj] at count
  rw [base, place]

/-- Names by base and by the number of draws before them. -/
def places (k : UInt32) : List Name → List (Name × UInt32)
  | [] => []
  | x :: xs => (x.base, k + 1) :: places (k + 1) xs

theorem names_eq_map (c : Supply) (k : UInt32) (xs : List Name) :
    Supply.names ⟨c.count + k⟩ xs = (places k xs).map (numberedName c) := by
  induction xs generalizing k with
  | nil => rfl
  | cons x xs ih =>
      have next : Supply.skip ⟨c.count + k⟩ 1 = ⟨c.count + (k + 1)⟩ := by
        rw [← UInt32.add_assoc]
        rfl
      rw [Supply.names, places, List.map_cons, Supply.name, next, ih (k + 1)]
      rfl

theorem places_names (c : Supply) (k : UInt32) {xs : List Name} (named : ∀ x ∈ xs, x ≠ "") :
    places k (c.names xs) = places k xs := by
  induction xs generalizing c k with
  | nil => rfl
  | cons x xs ih =>
      rw [List.forall_mem_cons] at named
      rw [Supply.names, places, places, ih (c.skip 1) (k + 1) named.2, Supply.name,
        base_append (base_ne_empty named.1)]

theorem exists_perm_names_again (c d : Supply) {xs : List Name} (named : ∀ x ∈ xs, x ≠ "") :
    ∃ τ : Equiv.Perm Name, (c.names xs).map τ = d.names (c.names xs) := by
  have whole : ∀ (c : Supply) (xs : List Name), c.names xs = (places 0 xs).map (numberedName c) := by
    intro c xs
    have eq := names_eq_map c 0 xs
    rwa [UInt32.add_zero] at eq
  rw [whole d, places_names c 0 named, whole c]
  refine Name.exists_perm_map_eq (by simp) ?_
  rw [List.zip_map']
  simp only [List.mem_map]
  rintro _ ⟨p, -, rfl⟩ _ ⟨q, -, rfl⟩
  rw [(numberedName_injective c).eq_iff, (numberedName_injective d).eq_iff]

theorem alphaEq_freshened_again {e : Knf} (closed : e.freeVars = [])
    (named : ∀ x ∈ e.binders, x ≠ "") (c d : Supply) :
    ((e.freshened .empty c).freshened .empty d).alphaEq (e.freshened .empty c) = true := by
  have renamedClosed := closed_freshened closed c
  obtain ⟨τ, drawn⟩ := exists_perm_names_again c d named
  have again : (e.freshened .empty c).freshened .empty d = (e.freshened .empty c).relabel τ := by
    refine freshened_eq_relabel ?_ (by simp [renamedClosed])
    rw [binders_freshened]
    exact drawn
  rw [again, alphaEq_relabel_left τ.injective renamedClosed, alphaEq_self]

theorem ne_empty_of_mem_names {c : Supply} {xs : List Name} : ∀ y ∈ c.names xs, y ≠ "" := by
  intro y hy
  obtain ⟨k, stem, -, -, rfl⟩ := Supply.ahead_of_mem_names hy
  simp

/-! ## Convergence -/

/-- Twice as many rounds as the code weighs are enough: of two rounds in a row the second one
    settles or one of them has made the code lighter. -/
theorem improveWithin_settles {e : Knf} (closed : e.freeVars = [])
    (named : ∀ x ∈ e.binders, x ≠ "") (done : Nat) (c : Supply) {left : Nat}
    (enough : 2 * e.weight ≤ left) : ((improveWithin 0 left done e).run c).1.settled = true := by
  induction left using Nat.strong_induction_on generalizing e done c with
  | h left ih =>
      have pos := e.weight_pos
      obtain ⟨left, rfl⟩ : ∃ k, left = k + 2 := ⟨left - 2, by omega⟩
      rw [improveWithin_run]
      split
      case isTrue => rfl
      case isFalse =>
        have next := closed_round_zero closed c
        have nextNamed : ∀ x ∈ ((e.round 0).run c).1.binders, x ≠ "" := fun x hx =>
          ne_empty_of_mem_names x (binders_round_zero e c hx)
        rcases round_zero_cases e c with ⟨renamed, -⟩ | lighter
        case inr => exact ih (left + 1) (by omega) next nextNamed (done + 1) _ (by omega)
        rw [improveWithin_run]
        split
        case isTrue => rfl
        case isFalse unsettled =>
          rcases round_zero_cases ((e.round 0).run c).1 ((e.round 0).run c).2 with ⟨again, -⟩ | lighter
          · refine absurd ?_ unsettled
            rw [again, renamed]
            exact alphaEq_freshened_again closed named _ _
          · have same := weight_freshened .empty c e
            rw [← renamed] at same
            refine ih left (by omega) (closed_round_zero next _) (fun x hx => ?_) _ _ (by omega)
            exact ne_empty_of_mem_names x (binders_round_zero _ _ hx)

/-- Rounds that have settled are not changed by a larger bound. -/
theorem improveWithin_mono {threshold left more done : Nat} {e : Knf} {c : Supply}
    (settled : ((improveWithin threshold left done e).run c).1.settled = true) (le : left ≤ more) :
    (improveWithin threshold more done e).run c = (improveWithin threshold left done e).run c := by
  induction left generalizing more done e c with
  | zero => cases settled
  | succ left ih =>
      obtain ⟨more, rfl⟩ : ∃ k, more = k + 1 := ⟨more - 1, by omega⟩
      rw [improveWithin_run] at settled
      rw [improveWithin_run, improveWithin_run]
      split
      case isTrue => rfl
      case isFalse unsettled =>
        rw [if_neg unsettled] at settled
        exact ih settled (by omega)

/-- Code on which rounds without expansion have settled is not changed by any of the passes. -/
theorem normal_of_settled {left done : Nat} {e : Knf} {c : Supply}
    (settled : ((improveWithin 0 left done e).run c).1.settled = true) :
    Normal ((improveWithin 0 left done e).run c).1.code := by
  obtain ⟨a, s, code, last, -⟩ := exists_last_round settled
  rw [code]
  rcases round_zero_cases a s with ⟨renamed, normal⟩ | lighter
  · rw [renamed]
    exact normal
  · exact absurd (weight_eq last) lighter.ne

/-- Without the expansion of calls the improvement of closed code converges.  For every state of
    the supply there is one result to which all bounds from twice the weight of the code on
    lead: the rounds settle before they reach the bound, and none of the passes changes the
    code of the result. -/
theorem improve_converges (e : Knf) (closed : e.freeVars = []) (c : Supply) :
    ∃ r : Improved × Supply,
      r.1.settled = true ∧
      (∀ bound, 2 * e.weight ≤ bound → (e.improve ⟨0, bound⟩).run c = r) ∧
      r.1.code.dropCopies = r.1.code ∧ r.1.code.flatten = r.1.code ∧
      (∀ d, (r.1.code.expandCalls 0).run d = (r.1.code, d)) ∧
      r.1.code.foldConstants = r.1.code ∧ r.1.code.dropDead = r.1.code := by
  have named : ∀ x ∈ (e.freshened .empty c).binders, x ≠ "" := by
    rw [binders_freshened]
    exact ne_empty_of_mem_names
  have enough : 2 * (e.freshened .empty c).weight ≤ 2 * e.weight := by rw [weight_freshened]
  have settled := improveWithin_settles (closed_freshened closed c) named 0
    (c.skip e.binders.length) enough
  have normal := normal_of_settled settled
  refine ⟨_, settled, fun bound enough => ?_, normal.copies, normal.flat, normal.calls,
    normal.folded, normal.live⟩
  rw [improve_run]
  exact improveWithin_mono settled enough

/-- Code in which a binding is bound, a tuple is taken apart, tests can be decided once a copy
    is dropped, and names are empty or hide each other. -/
def nesting : Knf :=
  .letIn "" .int (.letIn "x" .int (.op (.int 41)) (.letIn "x" .int (.op (.var "x")) (.op (.var "x"))))
    (.letIn "p" (.tuple [.int, .int]) (.op (.tuple ["", ""]))
      (.letTuple [("x", .int), ("", .int)] "p"
        (.branch .eq "x" "" (.externApp "print_int" ["x"]) (.op .unit))))

theorem improve_nesting :
    nesting.freeVars = [] ∧ ∃ r : Improved × Supply, r.1.settled = true ∧
      (nesting.improve ⟨0, 1000⟩).run ⟨4294967290⟩ = r ∧
      r.1.code.dropCopies = r.1.code ∧ r.1.code.flatten = r.1.code ∧
      (∀ d, (r.1.code.expandCalls 0).run d = (r.1.code, d)) ∧
      r.1.code.foldConstants = r.1.code ∧ r.1.code.dropDead = r.1.code := by
  have closed : nesting.freeVars = [] := by decide +kernel
  obtain ⟨r, settled, run, unchanged⟩ := improve_converges nesting closed ⟨4294967290⟩
  exact ⟨closed, r, settled, run 1000 (by decide +kernel), unchanged⟩

end MiddleEnd.Knf
