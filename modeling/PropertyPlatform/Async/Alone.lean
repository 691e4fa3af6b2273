import PropertyPlatform.Async.Interleaving

/-!
# One program with the world to itself

Only one program is answered, always by the same choice, while the environment may move in
between. What such a run makes of the world is found by recursion on the program.
-/

namespace Async

open Relation

variable {S : Signature} {ι World Choice Drift α β : Type} [DecidableEq ι]
variable {V : Server S ι World Choice Drift} {i : ι} {choice : Choice}

/-- A step of the environment, or of one program by the given choice. -/
inductive AloneStep (V : Server S ι World Choice Drift) (i : ι) (choice : Choice) :
    Config S ι World α → Config S ι World α → Prop where
  | serve {c : Config S ι World α} {q : S.Request}
      {k : Except S.Err (S.Reply q) → Program S α} {r : Except S.Err (S.Reply q)} {w : World}
      (hprogram : c.program i = .await q k) (hserve : V.serve i q choice c.world = some (r, w)) :
      AloneStep V i choice c (c.answered i q r k w)
  | drift {c : Config S ι World α} {d : Drift} {w : World}
      (hdrift : V.drift d c.world = some w) : AloneStep V i choice c { c with world := w }

abbrev AloneRun (V : Server S ι World Choice Drift) (i : ι) (choice : Choice) :
    Config S ι World α → Config S ι World α → Prop :=
  ReflTransGen (AloneStep V i choice)

theorem AloneRun.run {c c' : Config S ι World α} (h : AloneRun V i choice c c') : Run V c c' := by
  refine ReflTransGen.mono (fun a b hs => ?_) _ _ h
  cases hs with
  | serve hprogram hserve => exact .serve hprogram hserve
  | drift hdrift => exact .drift hdrift

/-- Left to itself, the program ends with an outcome and leaves the second world behind. -/
inductive Finishes (V : Server S ι World Choice Drift) (i : ι) (choice : Choice) :
    Program S α → World → Except S.Err α → World → Prop where
  | pure {a : α} {w : World} : Finishes V i choice (.pure a) w (.ok a) w
  | throw {e : S.Err} {w : World} : Finishes V i choice (.throw e) w (.error e) w
  | serve {q : S.Request} {k : Except S.Err (S.Reply q) → Program S α}
      {r : Except S.Err (S.Reply q)} {w w₁ w' : World} {o : Except S.Err α}
      (hserve : V.serve i q choice w = some (r, w₁)) (hrest : Finishes V i choice (k r) w₁ o w') :
      Finishes V i choice (.await q k) w o w'
  | drift {p : Program S α} {d : Drift} {w w₁ w' : World} {o : Except S.Err α}
      (hdrift : V.drift d w = some w₁) (hrest : Finishes V i choice p w₁ o w') :
      Finishes V i choice p w o w'

theorem finishes_of_run {c c' : Config S ι World α} {o : Except S.Err α}
    (h : AloneRun V i choice c c') (hdone : c'.program i = .ofOutcome o) :
    Finishes V i choice (c.program i) c.world o c'.world := by
  induction h using ReflTransGen.head_induction_on with
  | refl =>
    rw [hdone]
    cases o with
    | ok a => exact .pure
    | error e => exact .throw
  | head hs _ ih =>
    cases hs with
    | serve hprogram hserve =>
      rw [Config.answered_program_self] at ih
      rw [hprogram]
      exact .serve hserve ih
    | drift hdrift => exact .drift hdrift ih

theorem run_of_finishes {p : Program S α} {w w' : World} {o : Except S.Err α}
    (h : Finishes V i choice p w o w') {c : Config S ι World α} (hp : c.program i = p)
    (hw : c.world = w) :
    ∃ c', AloneRun V i choice c c' ∧ c'.program i = .ofOutcome o ∧ c'.world = w' := by
  induction h generalizing c with
  | pure => exact ⟨c, .refl, hp, hw⟩
  | throw => exact ⟨c, .refl, hp, hw⟩
  | serve hserve _ ih =>
    subst hw
    obtain ⟨c', hrun, hdone⟩ := ih (Config.answered_program_self (c := c)) rfl
    exact ⟨c', .head (.serve hp hserve) hrun, hdone⟩
  | @drift p d w w₁ w' o hdrift _ ih =>
    subst hw
    obtain ⟨c', hrun, hdone⟩ := ih (c := { c with world := w₁ }) hp rfl
    exact ⟨c', .head (.drift hdrift) hrun, hdone⟩

omit [DecidableEq ι] in
/-- A sequence finishes in two parts, or where its first part throws. -/
theorem Finishes.of_bind {p : Program S α} {f : α → Program S β} {w w' : World}
    {o : Except S.Err β} (h : Finishes V i choice (p.bind f) w o w') :
    (∃ a w₁, Finishes V i choice p w (.ok a) w₁ ∧ Finishes V i choice (f a) w₁ o w') ∨
      ∃ e, o = .error e ∧ Finishes V i choice p w (.error e) w' := by
  generalize hq : p.bind f = q at h
  induction h generalizing p with
  | pure =>
    cases p with
    | pure a =>
      have hrest : f a = .pure _ := hq
      exact Or.inl ⟨a, _, .pure, hrest ▸ .pure⟩
    | throw e => cases hq
    | await q k => cases hq
  | throw =>
    cases p with
    | pure a =>
      have hrest : f a = .throw _ := hq
      exact Or.inl ⟨a, _, .pure, hrest ▸ .throw⟩
    | throw e =>
      cases hq
      exact Or.inr ⟨_, rfl, .throw⟩
    | await q k => cases hq
  | serve hserve hrest ih =>
    cases p with
    | pure a =>
      have heq : f a = .await _ _ := hq
      exact Or.inl ⟨a, _, .pure, heq ▸ .serve hserve hrest⟩
    | throw e => cases hq
    | await q k =>
      cases hq
      rcases ih rfl with ⟨a, w₁, hfirst, hsecond⟩ | ⟨e, rfl, hfirst⟩
      · exact Or.inl ⟨a, w₁, .serve hserve hfirst, hsecond⟩
      · exact Or.inr ⟨e, rfl, .serve hserve hfirst⟩
  | drift hdrift hrest ih =>
    rcases ih hq with ⟨a, w₁, hfirst, hsecond⟩ | ⟨e, rfl, hfirst⟩
    · exact Or.inl ⟨a, w₁, .drift hdrift hfirst, hsecond⟩
    · exact Or.inr ⟨e, rfl, .drift hdrift hfirst⟩

omit [DecidableEq ι] in
/-- Returning a value made from the result does not change where a program leads. -/
theorem finishes_bind_pure {f : α → β} {p : Program S α} {w w' : World} {o : Except S.Err β} :
    Finishes V i choice (p.bind fun a => .pure (f a)) w o w' ↔
      ∃ o', o = o'.map f ∧ Finishes V i choice p w o' w' := by
  constructor
  · intro h
    generalize hq : (p.bind fun a => .pure (f a)) = q at h
    induction h generalizing p with
    | pure =>
      cases p with
      | pure a =>
        cases hq
        exact ⟨.ok a, rfl, .pure⟩
      | throw e => cases hq
      | await q k => cases hq
    | throw =>
      cases p with
      | pure a => cases hq
      | throw e =>
        cases hq
        exact ⟨.error _, rfl, .throw⟩
      | await q k => cases hq
    | serve hserve _ ih =>
      cases p with
      | pure a => cases hq
      | throw e => cases hq
      | await q k =>
        cases hq
        obtain ⟨o', heq, hrest⟩ := ih rfl
        exact ⟨o', heq, .serve hserve hrest⟩
    | drift hdrift _ ih =>
      obtain ⟨o', heq, hrest⟩ := ih hq
      exact ⟨o', heq, .drift hdrift hrest⟩
  · rintro ⟨o', rfl, h⟩
    induction h with
    | pure => exact .pure
    | throw => exact .throw
    | serve hserve _ ih => exact .serve hserve ih
    | drift hdrift _ ih => exact .drift hdrift ih

omit [DecidableEq ι] in
/-- A program whose requests are all answered finishes, and keeps what the answers keep. -/
theorem finishes_of_uses {allowed : S.Request → Prop} {keep : World → Prop} {p : Program S α}
    (hp : p.Uses allowed) (hserve : ∀ q w, allowed q → keep w →
      ∃ r w₁, V.serve i q choice w = some (r, w₁) ∧ keep w₁) {w : World} (hw : keep w) :
    ∃ o w', Finishes V i choice p w o w' ∧ keep w' := by
  induction p generalizing w with
  | pure a => exact ⟨_, _, .pure, hw⟩
  | throw e => exact ⟨_, _, .throw, hw⟩
  | await q k ih =>
    obtain ⟨r, w₁, hserved, hw₁⟩ := hserve q w hp.1 hw
    obtain ⟨o, w', hrest, hw'⟩ := ih r (hp.2 r) hw₁
    exact ⟨o, w', .serve hserved hrest, hw'⟩

omit [DecidableEq ι] in
/-- After its last request a program waits while the environment may move. -/
theorem Finishes.of_ofOutcome {still : World → World → Prop} (hrefl : ∀ w, still w w)
    (hdrift : ∀ d w w₁ w', V.drift d w = some w₁ → still w₁ w' → still w w')
    {o o' : Except S.Err α} {w w' : World} (h : Finishes V i choice (.ofOutcome o) w o' w') :
    o' = o ∧ still w w' := by
  generalize hp : Program.ofOutcome o = p at h
  induction h with
  | pure =>
    cases o with
    | ok a =>
      cases hp
      exact ⟨rfl, hrefl _⟩
    | error e => cases hp
  | throw =>
    cases o with
    | ok a => cases hp
    | error e =>
      cases hp
      exact ⟨rfl, hrefl _⟩
  | serve _ _ => cases o <;> cases hp
  | drift hd _ ih =>
    obtain ⟨heq, hstill⟩ := ih hp
    exact ⟨heq, hdrift _ _ _ _ hd hstill⟩

omit [DecidableEq ι] in
/-- A single request is answered once, with the environment moving before and after. -/
theorem Finishes.of_perform {still : World → World → Prop} (hrefl : ∀ w, still w w)
    (hdrift : ∀ d w w₁ w', V.drift d w = some w₁ → still w₁ w' → still w w') {q : S.Request}
    {o : Except S.Err (S.Reply q)} {w w' : World}
    (h : Finishes V i choice (Program.perform q) w o w') :
    ∃ w₁ w₂, still w w₁ ∧ V.serve i q choice w₁ = some (o, w₂) ∧ still w₂ w' := by
  generalize hp : Program.perform q = p at h
  induction h with
  | pure => cases hp
  | throw => cases hp
  | @serve q k r w w₁ w' o hserve hrest =>
    cases hp
    have hout : Finishes V i choice (.ofOutcome r) w₁ o w' := by
      cases r <;> exact hrest
    obtain ⟨rfl, hstill⟩ := hout.of_ofOutcome hrefl hdrift
    exact ⟨w, w₁, hrefl w, hserve, hstill⟩
  | drift hd _ ih =>
    obtain ⟨w₁, w₂, hbefore, hserve, hafter⟩ := ih hp
    exact ⟨w₁, w₂, hdrift _ _ _ _ hd hbefore, hserve, hafter⟩

end Async
