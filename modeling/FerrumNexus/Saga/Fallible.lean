import FerrumNexus.Saga.Program

/-!
# Programs that may throw

A fallible program is a program whose result is an exception or a value. Its
weakest precondition takes one postcondition for each, so that a compensation
is a rule about `tryCatch` and a caller's proof never mentions the encoding.
-/
namespace FerrumNexus.Saga

/-- A program over `σ` that may throw an `ε`. -/
abbrev Fallible (σ χ ε : Type) := ExceptT ε (Program σ χ)

variable {σ χ ε α β : Type}

/-- One atomic action with a fallible outcome. An exception does not undo the
action: the state it answers with is kept. -/
def atomic (f : σ → χ → Option (Except ε α × σ)) : Fallible σ χ ε α :=
  ExceptT.mk (.action f .done)

/-- The promise combinator `.catch(() => undefined)`. -/
def swallow (p : Fallible σ χ ε α) : Fallible σ χ ε (Option α) :=
  tryCatch (some <$> p) (fun _ => pure none)

/-- The program on the choices `fair` accepts. -/
def Fallible.limit (fair : χ → Bool) (p : Fallible σ χ ε α) : Fallible σ χ ε α :=
  ExceptT.mk (p.run.limit fair)

section Limit

variable {fair : χ → Bool}

theorem limit_atomic (f : σ → χ → Option (Except ε α × σ)) :
    (atomic f).limit fair = atomic fun s c => if fair c then f s c else none := rfl

theorem limit_bind (p : Fallible σ χ ε β) (g : β → Fallible σ χ ε α) :
    (p >>= g).limit fair = p.limit fair >>= fun b => (g b).limit fair := by
  refine (Program.limit_bind fair _ _).trans ?_
  refine congrArg (Program.bind (p.run.limit fair)) (funext fun r => ?_)
  cases r with
  | ok b => rfl
  | error e => rfl

theorem limit_tryCatch (p : Fallible σ χ ε α) (h : ε → Fallible σ χ ε α) :
    (tryCatch p h).limit fair = tryCatch (p.limit fair) fun e => (h e).limit fair := by
  refine (Program.limit_bind fair _ _).trans ?_
  refine congrArg (Program.bind (p.run.limit fair)) (funext fun r => ?_)
  cases r with
  | ok a => rfl
  | error e => rfl

theorem limit_map (p : Fallible σ χ ε β) (g : β → α) : (g <$> p).limit fair = g <$> p.limit fair :=
  limit_bind p fun b => pure (g b)

end Limit

/-- A normal result satisfies `Q`, an exception `E`. -/
def wpe (R G : σ → σ → Prop) (p : Fallible σ χ ε α) (Q : α → σ → Prop) (E : ε → σ → Prop)
    (s : σ) : Prop :=
  wp R G p.run (fun r s' => match r with
    | .ok a => Q a s'
    | .error e => E e s') s

variable {R G : σ → σ → Prop} {Q : α → σ → Prop} {E : ε → σ → Prop} {s : σ}

@[simp] theorem wpe_pure (a : α) : wpe R G (pure a : Fallible σ χ ε α) Q E s ↔ Q a s := Iff.rfl

@[simp] theorem wpe_throw (e : ε) : wpe R G (throw e : Fallible σ χ ε α) Q E s ↔ E e s := Iff.rfl

theorem wpe_bind (p : Fallible σ χ ε β) (g : β → Fallible σ χ ε α) :
    wpe R G (p >>= g) Q E s ↔ wpe R G p (fun b s' => wpe R G (g b) Q E s') E s := by
  have h : (p >>= g).run = p.run >>= fun r => match r with
      | .ok b => (g b).run
      | .error e => .done (.error e) := rfl
  simp only [wpe, h, wp_bind]
  constructor
  · intro hp
    refine wp_mono hp ?_
    rintro (e | b) s' hr
    · exact hr
    · exact hr
  · intro hp
    refine wp_mono hp ?_
    rintro (e | b) s' hr
    · exact hr
    · exact hr

theorem wpe_tryCatch (p : Fallible σ χ ε α) (h : ε → Fallible σ χ ε α) :
    wpe R G (tryCatch p h) Q E s ↔
      wpe R G p Q (fun e s' => wpe R G (h e) Q E s') s := by
  have hrun : (tryCatch p h : Fallible σ χ ε α).run = p.run >>= fun r => match r with
      | .ok a => .done (.ok a)
      | .error e => (h e).run := rfl
  simp only [wpe, hrun, wp_bind]
  constructor
  · intro hp
    refine wp_mono hp ?_
    rintro (e | a) s' hr
    · exact hr
    · exact hr
  · intro hp
    refine wp_mono hp ?_
    rintro (e | a) s' hr
    · exact hr
    · exact hr

theorem wpe_map (p : Fallible σ χ ε β) (g : β → α) :
    wpe R G (g <$> p) Q E s ↔ wpe R G p (fun b s' => Q (g b) s') E s := by
  have h : (g <$> p) = p >>= fun b => pure (g b) := rfl
  rw [h, wpe_bind]
  simp only [wpe_pure]

theorem wpe_swallow (p : Fallible σ χ ε α) {Q : Option α → σ → Prop} :
    wpe R G (swallow p) Q E s ↔
      wpe R G p (fun a s' => Q (some a) s') (fun _ s' => Q none s') s := by
  simp only [swallow, wpe_tryCatch, wpe_map, wpe_pure]

theorem wpe_atomic (f : σ → χ → Option (Except ε α × σ)) :
    wpe R G (atomic f) Q E s ↔ ∀ s₁, R s s₁ → ∀ c r s', f s₁ c = some (r, s') →
      G s₁ s' ∧ match r with
        | .ok a => Q a s'
        | .error e => E e s' := Iff.rfl

variable {p : Fallible σ χ ε α}

theorem wpe_mono {Q' : α → σ → Prop} {E' : ε → σ → Prop} (h : wpe R G p Q E s)
    (hq : ∀ a s, Q a s → Q' a s) (he : ∀ e s, E e s → E' e s) :
    wpe R G p Q' E' s := by
  refine wp_mono h ?_
  rintro (e | a) s' hr
  · exact he e s' hr
  · exact hq a s' hr

theorem wpe_track {T : σ → σ → Prop} (hrefl : ∀ s, T s s)
    (htrans : ∀ a b c, T a b → T b c → T a c) (hR : ∀ a b, R a b → T a b)
    (hG : ∀ a b, G a b → T a b) (h : wpe R G p Q E s) :
    wpe R G p (fun a s' => Q a s' ∧ T s s') (fun e s' => E e s' ∧ T s s') s := by
  refine wp_mono (wp_track hrefl htrans hR hG h) ?_
  rintro (e | a) s' hr
  · exact hr
  · exact hr

/-- The rule for a call: a specification of the callee is enough. -/
theorem wpe_call {p : Fallible σ χ ε β} {g : β → Fallible σ χ ε α} {M : β → σ → Prop}
    {F : ε → σ → Prop} (hp : wpe R G p M F s)
    (hg : ∀ b s', M b s' → wpe R G (g b) Q E s') (he : ∀ e s', F e s' → E e s') :
    wpe R G (p >>= g) Q E s :=
  (wpe_bind p g).mpr (wpe_mono hp hg he)

/-- `p` changes nothing, whatever others do. -/
def Reads (p : Fallible σ χ ε α) : Prop :=
  ∀ s, wpe (fun _ _ => True) Eq p (fun _ _ => True) (fun _ _ => True) s

theorem reads_pure (a : α) : Reads (pure a : Fallible σ χ ε α) := fun _ => trivial

theorem reads_throw (e : ε) : Reads (throw e : Fallible σ χ ε α) := fun _ => trivial

theorem Reads.bind {p : Fallible σ χ ε β} {g : β → Fallible σ χ ε α} (hp : Reads p)
    (hg : ∀ b, Reads (g b)) : Reads (p >>= g) :=
  fun s => wpe_call (hp s) (fun b s' _ => hg b s') fun _ _ h => h

theorem reads_atomic {f : σ → χ → Option (Except ε α × σ)}
    (h : ∀ s c r s', f s c = some (r, s') → s = s') : Reads (atomic f) := by
  intro s
  rw [wpe_atomic]
  intro s₁ _ c r s' hf
  refine ⟨h s₁ c r s' hf, ?_⟩
  cases r with
  | ok a => trivial
  | error e => trivial

/-- A read between two stable facts. -/
theorem Reads.wpe {P : σ → Prop} (hstable : ∀ s s', P s → R s s' → P s') (h : Reads p) (hs : P s) :
    wpe R (fun s s' => s = s' ∧ P s') p (fun _ s' => P s') (fun _ s' => P s') s := by
  have htrue : wp (fun _ _ => True) Eq p.run (fun _ _ => True) s :=
    wp_mono (h s) fun _ _ _ => trivial
  refine wp_mono (wp_reads hstable htrue hs) ?_
  rintro (e | a) s' hs'
  · exact hs'
  · exact hs'

/-! ## Programs that make one call at most

A weakest precondition sees what an action changes and not which call it was: a
refused delete leaves the state as a read does. Here a program is followed call
by call. Every action of it is a read, but for one, which is the given call and
is made in a state `P` accepts. -/

section Once

variable {γ : Type}

/-- An action that leaves every state as it is. -/
def IsRead {β : Type} (f : σ → χ → Option (β × σ)) : Prop :=
  ∀ s c b s', f s c = some (b, s') → s = s'

/-- Run alone from `s`, the program issues `call` at most once, and only in a
state of `P`; whatever else it does is a read. -/
inductive Once (call : Program σ χ γ) (P : σ → Prop) : Program σ χ α → σ → Prop
  | done (a : α) (s : σ) : Once call P (.done a) s
  | read {β : Type} {f : σ → χ → Option (β × σ)} {k : β → Program σ χ α} {s : σ}
      (hf : IsRead f) (h : ∀ c b, f s c = some (b, s) → Once call P (k b) s) : Once call P (.action f k) s
  | call {f : σ → χ → Option (γ × σ)} {k : γ → Program σ χ α} {s : σ}
      (hcall : call = .action f .done) (hs : P s)
      (h : ∀ b s', wp (fun _ _ => True) Eq (k b) (fun _ _ => True) s') :
      Once call P (.action f k) s

variable {call : Program σ χ γ} {P : σ → Prop}

/-- Reads may come first. What they answer is known of a run from `s`. -/
theorem once_reads {p : Program σ χ β} {g : β → Program σ χ α} {s : σ}
    (hreads : ∀ s', wp (fun _ _ => True) Eq p (fun _ _ => True) s')
    (h : wp Eq Eq p (fun b s' => s = s' → Once call P (g b) s) s) : Once call P (p >>= g) s := by
  induction p with
  | done b => exact h rfl
  | action f k ih =>
    refine Once.read ?_ ?_
    · intro s₁ c b s' hf
      exact (hreads s₁ s₁ trivial c b s' hf).1
    · intro c b hf
      apply ih b
      · intro s'
        have hk := (hreads s s trivial c b s hf).2
        exact wp_env (fun _ _ _ _ _ => trivial) (fun _ _ _ _ _ => trivial) hk trivial
      · exact (h s rfl c b s hf).2

/-- The same rule for programs that may throw. -/
theorem Reads.once {p : Fallible σ χ ε β} {g : β → Fallible σ χ ε α} {s : σ} (hreads : Reads p)
    (h : Saga.wpe Eq Eq p (fun b s' => s = s' → Once call P (g b).run s) (fun _ _ => True) s) :
    Once call P (p >>= g).run s := by
  refine once_reads (p := p.run) (fun s' => wp_mono (hreads s') fun _ _ _ => trivial) ?_
  refine wp_mono h ?_
  intro r s' hr
  cases r with
  | ok b => exact hr
  | error e => exact fun _ => Once.done _ _

theorem once_pure (a : α) (s : σ) : Once call P (pure a : Fallible σ χ ε α).run s :=
  Once.done _ s

/-- The call itself, where nothing but reads follows it however it ends. -/
theorem once_attempt {f : σ → χ → Option (Except ε β × σ)} {a : β → α}
    {handler : ε → Fallible σ χ ε α} {s : σ} (hs : P s) (hhandler : ∀ e, Reads (handler e)) :
    Once (atomic f).run P (tryCatch (atomic f >>= fun b => pure (a b)) handler).run s := by
  refine Once.call (f := f) rfl hs ?_
  intro r s'
  cases r with
  | ok b => exact trivial
  | error e =>
    refine wp_mono (hhandler e s') ?_
    exact fun _ _ _ => trivial

end Once

/-- `p` with its exceptions dropped still reads. -/
theorem Reads.swallow (h : Reads p) : Reads (swallow p) := by
  intro s
  rw [wpe_swallow]
  exact wpe_mono (h s) (fun _ _ _ => trivial) fun _ _ _ => trivial

end FerrumNexus.Saga
