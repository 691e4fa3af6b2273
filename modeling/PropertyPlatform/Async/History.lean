import PropertyPlatform.Async.Program

/-!
# Facts about the history of one program

`Ensures` is the weakest precondition of a program over its own history. The
replies are only constrained by a protocol, so a fact proved here holds in
every interleaving whose replies obey the protocol, whatever the other
programs do in between.
-/

namespace Async

variable {S : Signature} {α β : Type}

/-- The replies that may be given to a request after a history of the same program. -/
abbrev Protocol (S : Signature) :=
  History S → (q : S.Request) → Except S.Err (S.Reply q) → Prop

/-- No assumption on the replies. -/
def Protocol.any : Protocol S := fun _ _ _ => True

namespace Program

/-- From history `h` every answered request re-establishes `inv`, and the outcome
satisfies `post` on the final history. -/
def Ensures (protocol : Protocol S) (inv : History S → Prop)
    (post : Except S.Err α → History S → Prop) : Program S α → History S → Prop
  | .pure a, h => post (.ok a) h
  | .throw e, h => post (.error e) h
  | .await q k, h => ∀ r, protocol h q r →
      inv (h ++ [⟨q, r⟩]) ∧ (k r).Ensures protocol inv post (h ++ [⟨q, r⟩])

variable {protocol : Protocol S} {inv : History S → Prop}
variable {post post' : Except S.Err α → History S → Prop}

@[simp] theorem ensures_pure (a : α) (h : History S) :
    (Program.pure a).Ensures protocol inv post h ↔ post (.ok a) h := Iff.rfl

@[simp] theorem ensures_throw (e : S.Err) (h : History S) :
    (Program.throw e).Ensures protocol inv post h ↔ post (.error e) h := Iff.rfl

theorem ensures_perform {q : S.Request} {post : Except S.Err (S.Reply q) → History S → Prop}
    {h : History S} : (perform q).Ensures protocol inv post h ↔
      ∀ r, protocol h q r → inv (h ++ [⟨q, r⟩]) ∧ post r (h ++ [⟨q, r⟩]) := by
  constructor
  · intro hp r hr
    have hk := hp r hr
    cases r <;> exact hk
  · intro hp r hr
    have hk := hp r hr
    cases r <;> exact hk

/-- What remains to be shown after the first part of a sequence. -/
def andThen (protocol : Protocol S) (inv : History S → Prop)
    (post : Except S.Err β → History S → Prop) (f : α → Program S β) :
    Except S.Err α → History S → Prop
  | .ok a, h => (f a).Ensures protocol inv post h
  | .error e, h => post (.error e) h

@[simp] theorem andThen_ok (post : Except S.Err β → History S → Prop) (f : α → Program S β)
    (a : α) (h : History S) : andThen protocol inv post f (.ok a) h ↔
      (f a).Ensures protocol inv post h := Iff.rfl

@[simp] theorem andThen_error (post : Except S.Err β → History S → Prop) (f : α → Program S β)
    (e : S.Err) (h : History S) :
    andThen protocol inv post f (.error e) h ↔ post (.error e) h := Iff.rfl

theorem ensures_bind {post : Except S.Err β → History S → Prop} {p : Program S α}
    {f : α → Program S β} {h : History S} :
    (p.bind f).Ensures protocol inv post h ↔
      p.Ensures protocol inv (andThen protocol inv post f) h := by
  induction p generalizing h with
  | pure a => rfl
  | throw e => rfl
  | await q k ih =>
    exact forall_congr' fun r => imp_congr_right fun _ => and_congr_right fun _ => ih r

/-- What remains to be shown once the guarded part of a `try` is over. -/
def orElse (protocol : Protocol S) (inv : History S → Prop)
    (post : Except S.Err α → History S → Prop) (handler : S.Err → Program S α) :
    Except S.Err α → History S → Prop
  | .ok a, h => post (.ok a) h
  | .error e, h => (handler e).Ensures protocol inv post h

@[simp] theorem orElse_ok (handler : S.Err → Program S α) (a : α) (h : History S) :
    orElse protocol inv post handler (.ok a) h ↔ post (.ok a) h := Iff.rfl

@[simp] theorem orElse_error (handler : S.Err → Program S α) (e : S.Err) (h : History S) :
    orElse protocol inv post handler (.error e) h ↔
      (handler e).Ensures protocol inv post h := Iff.rfl

theorem ensures_catching {p : Program S α} {handler : S.Err → Program S α} {h : History S} :
    (p.catching handler).Ensures protocol inv post h ↔
      p.Ensures protocol inv (orElse protocol inv post handler) h := by
  induction p generalizing h with
  | pure a => rfl
  | throw e => rfl
  | await q k ih =>
    exact forall_congr' fun r => imp_congr_right fun _ => and_congr_right fun _ => ih r

/-- What the cleanup has to establish for each outcome of the guarded part. -/
def afterwards (protocol : Protocol S) (inv : History S → Prop)
    (post : Except S.Err α → History S → Prop) (cleanup : Program S Unit)
    (outcome : Except S.Err α) : History S → Prop :=
  cleanup.Ensures protocol inv fun
    | .ok _, h => post outcome h
    | .error e, h => post (.error e) h

theorem ensures_finalizing {p : Program S α} {cleanup : Program S Unit} {h : History S} :
    (p.finalizing cleanup).Ensures protocol inv post h ↔
      p.Ensures protocol inv (afterwards protocol inv post cleanup) h := by
  induction p generalizing h with
  | pure a =>
    change (cleanup.bind _).Ensures protocol inv post h ↔ _
    rw [ensures_bind]
    exact iff_of_eq (congrArg (cleanup.Ensures protocol inv · h) (by funext o h; cases o <;> rfl))
  | throw e =>
    change (cleanup.bind _).Ensures protocol inv post h ↔ _
    rw [ensures_bind]
    exact iff_of_eq (congrArg (cleanup.Ensures protocol inv · h) (by funext o h; cases o <;> rfl))
  | await q k ih =>
    exact forall_congr' fun r => imp_congr_right fun _ => and_congr_right fun _ => ih r

/-- The rule of consequence. -/
theorem Ensures.mono {p : Program S α} {h : History S} (hp : p.Ensures protocol inv post h)
    (hpost : ∀ o h, post o h → post' o h) : p.Ensures protocol inv post' h := by
  induction p generalizing h with
  | pure a => exact hpost _ _ hp
  | throw e => exact hpost _ _ hp
  | await q k ih => exact fun r hr => ⟨(hp r hr).1, ih r (hp r hr).2⟩

/-- A stronger protocol and a weaker invariant keep every fact. -/
theorem Ensures.weaken {strict : Protocol S} {inv' : History S → Prop} {p : Program S α}
    {h : History S} (hp : p.Ensures protocol inv post h)
    (hprotocol : ∀ h q r, strict h q r → protocol h q r) (hinv : ∀ h, inv h → inv' h) :
    p.Ensures strict inv' post h := by
  induction p generalizing h with
  | pure a => exact hp
  | throw e => exact hp
  | await q k ih =>
    intro r hr
    have hq := hp r (hprotocol h q r hr)
    exact ⟨hinv _ hq.1, ih r hq.2⟩

theorem Ensures.and {p : Program S α} {inv' : History S → Prop} {h : History S}
    (hp : p.Ensures protocol inv post h) (hp' : p.Ensures protocol inv' post' h) :
    p.Ensures protocol (fun h => inv h ∧ inv' h) (fun o h => post o h ∧ post' o h) h := by
  induction p generalizing h with
  | pure a => exact ⟨hp, hp'⟩
  | throw e => exact ⟨hp, hp'⟩
  | await q k ih =>
    exact fun r hr => ⟨⟨(hp r hr).1, (hp' r hr).1⟩, ih r (hp r hr).2 (hp' r hr).2⟩

/-- The frame rule: a program that only awaits harmless requests keeps any history
predicate which those requests keep. -/
theorem Uses.ensures {allowed : S.Request → Prop} {p : Program S α} (hp : p.Uses allowed)
    {keep : History S → Prop}
    (hkeep : ∀ h q r, keep h → allowed q → protocol h q r → keep (h ++ [⟨q, r⟩]))
    {h : History S} (hh : keep h) : p.Ensures protocol keep (fun _ => keep) h := by
  induction p generalizing h with
  | pure a => exact hh
  | throw e => exact hh
  | await q k ih =>
    intro r hr
    have hnext := hkeep h q r hh hp.1 hr
    exact ⟨hnext, ih r (hp.2 r) hnext⟩

/-- Wherever it starts, the program keeps a fact about its history. -/
def Keeps (protocol : Protocol S) (keep : History S → Prop) (p : Program S α) : Prop :=
  ∀ h, keep h → p.Ensures protocol keep (fun _ => keep) h

variable {keep : History S → Prop}

theorem Uses.keeps {allowed : S.Request → Prop} {p : Program S α} (hp : p.Uses allowed)
    (hkeep : ∀ h q r, keep h → allowed q → protocol h q r → keep (h ++ [⟨q, r⟩])) :
    p.Keeps protocol keep :=
  fun _ hh => hp.ensures hkeep hh

theorem keeps_pure (a : α) : (Program.pure a : Program S α).Keeps protocol keep := fun _ hh => hh

theorem keeps_throw (e : S.Err) : (Program.throw e : Program S α).Keeps protocol keep :=
  fun _ hh => hh

theorem Keeps.bind {p : Program S α} {f : α → Program S β} (hp : p.Keeps protocol keep)
    (hf : ∀ a, (f a).Keeps protocol keep) : (p.bind f).Keeps protocol keep := by
  intro h hh
  rw [ensures_bind]
  refine (hp h hh).mono fun o h hh => ?_
  cases o with
  | ok a => exact hf a h hh
  | error e => exact hh

theorem Yields.keeps_bind {allowed : S.Request → Prop} {good : α → Prop} {p : Program S α}
    {f : α → Program S β} (hp : p.Yields allowed good)
    (hkeep : ∀ h q r, keep h → allowed q → protocol h q r → keep (h ++ [⟨q, r⟩]))
    (hf : ∀ a, good a → (f a).Keeps protocol keep) : (p.bind f).Keeps protocol keep := by
  intro h hh
  induction p generalizing h with
  | pure a => exact hf a hp h hh
  | throw e => exact hh
  | await q k ih =>
    intro r hr
    have hnext := hkeep h q r hh hp.1 hr
    exact ⟨hnext, ih r (hp.2 r) _ hnext⟩

theorem Keeps.catching {p : Program S α} {handler : S.Err → Program S α}
    (hp : p.Keeps protocol keep) (hh : ∀ e, (handler e).Keeps protocol keep) :
    (p.catching handler).Keeps protocol keep := by
  intro h hkeep
  rw [ensures_catching]
  refine (hp h hkeep).mono fun o h hkeep => ?_
  cases o with
  | ok a => exact hkeep
  | error e => exact hh e h hkeep

/-- The program, told the replies of a history, has become another one. -/
inductive Leads (p : Program S α) : History S → Program S α → Prop where
  | start : Leads p [] p
  | answered {h : History S} {q : S.Request} {k : Except S.Err (S.Reply q) → Program S α}
      (hp : Leads p h (.await q k)) (r : Except S.Err (S.Reply q)) :
      Leads p (h ++ [⟨q, r⟩]) (k r)

/-- The replies decide what becomes of a program. -/
theorem Leads.unique {p p₁ p₂ : Program S α} {h : History S} (h₁ : p.Leads h p₁)
    (h₂ : p.Leads h p₂) : p₁ = p₂ := by
  induction h₁ generalizing p₂ with
  | start =>
    generalize hnil : ([] : History S) = h at h₂
    cases h₂ with
    | start => rfl
    | answered hp r => simp at hnil
  | @answered h q k _ r ih =>
    generalize hconcat : h ++ [⟨q, r⟩] = h' at h₂
    cases h₂ with
    | start => simp at hconcat
    | @answered h' q' k' hp r' =>
      obtain ⟨rfl, hlast⟩ := List.append_inj' hconcat rfl
      cases hlast
      cases ih hp
      rfl

/-- What is left of a program awaits nothing that the program does not. -/
theorem Leads.uses {allowed : S.Request → Prop} {p p' : Program S α} {h : History S}
    (hlead : p.Leads h p') (hp : p.Uses allowed) :
    (∀ e ∈ h, allowed e.request) ∧ p'.Uses allowed := by
  induction hlead with
  | start => exact ⟨fun e he => (List.not_mem_nil he).elim, hp⟩
  | answered _ r ih =>
    obtain ⟨hq, hrest⟩ := ih.2
    refine ⟨fun e he => ?_, hrest r⟩
    rcases List.mem_append.mp he with he | he
    · exact ih.1 e he
    · rw [List.mem_singleton.mp he]
      exact hq

/-- Nothing is awaited any more. -/
def Ended : Program S α → Prop
  | .await _ _ => False
  | _ => True

instance : ∀ p : Program S α, Decidable p.Ended
  | .pure _ => isTrue trivial
  | .throw _ => isTrue trivial
  | .await _ _ => isFalse id

/-- What is left of a program that has ended. -/
def ofOutcome : Except S.Err α → Program S α
  | .ok a => .pure a
  | .error e => .throw e

theorem Ended.outcome {p : Program S α} (h : p.Ended) : ∃ o, p = .ofOutcome o := by
  cases p with
  | pure a => exact ⟨.ok a, rfl⟩
  | throw e => exact ⟨.error e, rfl⟩
  | await q k => exact h.elim

theorem ended_ofOutcome (o : Except S.Err α) : (ofOutcome o : Program S α).Ended := by
  cases o <;> trivial

/-- A program that has ended leads nowhere. -/
theorem Ended.stays {p p' : Program S α} {h : History S} (hp : p.Ended) (hlead : p.Leads h p') :
    h = [] ∧ p' = p := by
  induction hlead with
  | start => exact ⟨rfl, rfl⟩
  | answered _ _ ih =>
    obtain ⟨-, rfl⟩ := ih
    exact hp.elim

/-- Along a history the program passes through every point of it. -/
theorem Leads.split {p p'' : Program S α} {h h' : History S} (hlead : p.Leads (h ++ h') p'') :
    ∃ p', p.Leads h p' ∧ p'.Leads h' p'' := by
  generalize hwhole : h ++ h' = g at hlead
  induction hlead generalizing h' with
  | start =>
    obtain ⟨rfl, rfl⟩ := List.append_eq_nil_iff.mp hwhole
    exact ⟨p, .start, .start⟩
  | @answered g q k hp r ih =>
    rcases List.eq_nil_or_concat h' with rfl | ⟨rest, e, rfl⟩
    · rw [List.append_nil] at hwhole
      subst hwhole
      exact ⟨_, hp.answered r, .start⟩
    · rw [List.concat_eq_append, ← List.append_assoc] at hwhole
      rw [List.concat_eq_append]
      obtain ⟨hfront, hlast⟩ := List.append_inj' hwhole rfl
      obtain rfl := List.singleton_inj.mp hlast
      obtain ⟨p', hfirst, hsecond⟩ := ih hfront
      exact ⟨p', hfirst, hsecond.answered r⟩

/-- Of two histories with one beginning at most one brings the program to its end. -/
theorem Leads.ends_once {p p₁ p₂ : Program S α} {g₁ g₂ t₁ t₂ : History S} (h₁ : p.Leads g₁ p₁)
    (h₂ : p.Leads g₂ p₂) (hended₁ : p₁.Ended) (hended₂ : p₂.Ended) (heq : g₁ ++ t₁ = g₂ ++ t₂) :
    g₁ = g₂ ∧ p₁ = p₂ := by
  have hlonger : ∀ {g g' : History S} {q q' : Program S α} {rest : History S}, p.Leads g q →
      q.Ended → p.Leads g' q' → g' = g ++ rest → g = g' ∧ q = q' := by
    rintro g _ q q' rest hq hended hq' rfl
    obtain ⟨r, hr, hrest⟩ := hq'.split
    obtain rfl := hq.unique hr
    obtain ⟨rfl, rfl⟩ := hended.stays hrest
    exact ⟨(List.append_nil g).symm, rfl⟩
  rcases List.append_eq_append_iff.mp heq with ⟨rest, hg, -⟩ | ⟨rest, hg, -⟩
  · exact hlonger h₁ hended₁ h₂ hg
  · obtain ⟨hgs, hps⟩ := hlonger h₂ hended₂ h₁ hg
    exact ⟨hgs.symm, hps.symm⟩

/-- Whatever the replies, a program ends where its own history leads it. -/
theorem Leads.ensures_ends {p p' : Program S α} {g : History S} (hlead : p.Leads g p')
    (h : History S) : p'.Ensures protocol (fun _ => True)
      (fun o h' => ∃ g', h' = h ++ g' ∧ p.Leads g' (.ofOutcome o)) (h ++ g) := by
  induction p' generalizing g with
  | pure a => exact ⟨g, rfl, hlead⟩
  | throw e => exact ⟨g, rfl, hlead⟩
  | await q k ih =>
    intro r _
    have hrest := ih r (hlead.answered r)
    rw [← List.append_assoc] at hrest
    exact ⟨trivial, hrest⟩

/-- Returning a value made from the result adds nothing to the history. -/
theorem Leads.of_bind_pure {f : α → β} {p : Program S α} {h : History S} {p' : Program S β}
    (hlead : (p.bind fun a => .pure (f a)).Leads h p') :
    ∃ p₀, p.Leads h p₀ ∧ p' = p₀.bind fun a => .pure (f a) := by
  induction hlead with
  | start => exact ⟨p, .start, rfl⟩
  | @answered h q k _ r ih =>
    obtain ⟨p₀, hp₀, heq⟩ := ih
    cases p₀ with
    | pure a => cases heq
    | throw e => cases heq
    | await q₀ k₀ =>
      cases heq
      exact ⟨k₀ r, hp₀.answered r, rfl⟩

theorem ended_bind_pure {f : α → β} {p : Program S α} :
    (p.bind fun a => .pure (f a)).Ended ↔ p.Ended := by
  cases p <;> exact Iff.rfl

/-- Along a history whose replies obey the protocol, the invariant holds at every point. -/
theorem Leads.ensures {p p' : Program S α} {h : History S} (hlead : p.Leads h p')
    (hp : p.Ensures protocol inv post []) (hnil : inv [])
    (hreplies : ∀ e ∈ h, ∀ h', protocol h' e.request e.reply) :
    inv h ∧ p'.Ensures protocol inv post h := by
  induction hlead with
  | start => exact ⟨hnil, hp⟩
  | @answered h q k _ r ih =>
    have hrest := (ih fun e he => hreplies e (List.mem_append_left _ he)).2
    exact hrest r (hreplies ⟨q, r⟩ (List.mem_append_right _ (List.mem_singleton_self _)) h)

end Program
end Async
