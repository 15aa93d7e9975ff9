import FerrumNexus.Saga.Leased

/-!
# What every action of a program does

Some facts need neither a lock nor an order: every action of every program is a
move of one kind, and what the moves preserve holds in every state of every
run. What a program saw stays true as long as no move undoes it, so a program is
followed with the facts it may keep in mind.

Under leases the data only grows, whoever holds which. What a transaction shows
of the data at its commit stays true wherever growth does not undo it: the rest
of the program may rely on it, and so may whoever gets the answer.
-/
namespace FerrumNexus.Saga

variable {σ χ ε α β : Type}

/-- From a state with the fact `K`, whatever others do within `R`, every action
of `p` is within `G`, `K` is never lost, and an answer satisfies `Q`. -/
def Steady (R G : σ → σ → Prop) (K : σ → Prop) (p : Fallible σ χ ε α) (Q : α → σ → Prop) : Prop :=
  ∀ s, K s → wpe R G p (fun a s' => K s' ∧ Q a s') (fun _ s' => K s') s

/-- A fact that no change within `R` undoes. -/
def Stable (R : σ → σ → Prop) (K : σ → Prop) : Prop :=
  ∀ s s', K s → R s s' → K s'

variable {R G : σ → σ → Prop} {K L : σ → Prop} {Q : α → σ → Prop}

theorem steady_pure {a : α} (h : ∀ s, K s → Q a s) :
    Steady R G K (pure a : Fallible σ χ ε α) Q :=
  fun s hs => ⟨hs, h s hs⟩

theorem steady_throw (e : ε) : Steady R G K (throw e : Fallible σ χ ε α) Q :=
  fun _ hs => hs

variable {p : Fallible σ χ ε α} {g : β → Fallible σ χ ε α}

theorem Steady.mono {Q' : α → σ → Prop} (h : Steady R G K p Q) (hQ : ∀ a s, K s → Q a s → Q' a s) :
    Steady R G K p Q' :=
  fun s hs => wpe_mono (h s hs) (fun a s' hq => ⟨hq.1, hQ a s' hq.1 hq.2⟩) fun _ _ h' => h'

theorem Steady.forget (h : Steady R G K p Q) :
    Steady R G K p fun _ _ => True :=
  h.mono fun _ _ _ _ => trivial

/-- What the first part answered is known in the second. -/
theorem Steady.bind {P : β → σ → Prop} {p : Fallible σ χ ε β} (hp : Steady R G K p P)
    (hg : ∀ b, Steady R G (fun s => K s ∧ P b s) (g b) Q) :
    Steady R G K (p >>= g) Q := by
  intro s hs
  refine wpe_call (hp s hs) (fun b s' hb => ?_) fun _ _ h => h
  refine wpe_mono (hg b s' hb) ?_ ?_
  · exact fun a s'' hq => ⟨hq.1.1, hq.2⟩
  · exact fun _ s'' h => h.1

/-- The second part needs nothing the first one answered. -/
theorem Steady.andThen {p : Fallible σ χ ε β} (hp : Steady R G K p fun _ _ => True)
    (hg : ∀ b, Steady R G K (g b) Q) :
    Steady R G K (p >>= g) Q :=
  fun s hs => wpe_call (hp s hs) (fun b s' hb => hg b s' hb.1) fun _ _ h => h

theorem steady_pure_bind {b : β} (h : Steady R G K (g b) Q) :
    Steady R G K (pure b >>= g) Q :=
  fun s hs => (wpe_bind _ _).mpr (h s hs)

theorem steady_throw_bind (e : ε) :
    Steady R G K (throw e >>= g) Q :=
  fun _ hs => (wpe_bind _ _).mpr hs

theorem Steady.map {p : Fallible σ χ ε β} {f : β → α} (h : Steady R G K p fun b s => Q (f b) s) :
    Steady R G K (f <$> p) Q :=
  fun s hs => (wpe_map p f).mpr (h s hs)

theorem Steady.tryCatch {handler : ε → Fallible σ χ ε α} (hp : Steady R G K p Q)
    (hh : ∀ e, Steady R G K (handler e) Q) :
    Steady R G K (tryCatch p handler) Q :=
  fun s hs => (wpe_tryCatch p handler).mpr
    (wpe_mono (hp s hs) (fun _ _ h => h) fun e s' h => hh e s' h)

theorem Steady.swallow (hp : Steady R G K p fun _ _ => True) :
    Steady R G K (swallow p) fun _ _ => True :=
  (hp.map (f := some)).tryCatch fun _ => steady_pure fun _ _ => trivial

theorem steady_atomic {f : σ → χ → Option (Except ε α × σ)} (hK : Stable R K) (h : ∀ s c r s', K s →
      f s c = some (r, s') → G s s' ∧ K s' ∧ ∀ a, r = .ok a → Q a s') :
    Steady R G K (atomic f) Q := by
  intro s hs
  rw [wpe_atomic]
  intro s₁ hr c r s' hf
  obtain ⟨hg, hk, hq⟩ := h s₁ c r s' (hK s s₁ hs hr) hf
  refine ⟨hg, ?_⟩
  cases r with
  | ok a => exact ⟨hk, hq a rfl⟩
  | error e => exact hk

theorem steady_ite {c : Prop} [Decidable c] {q : Fallible σ χ ε α}
    (hp : c → Steady R G K p Q) (hq : ¬ c → Steady R G K q Q) :
    Steady R G K (if c then p else q) Q := by
  split
  · rename_i hc
    exact hp hc
  · rename_i hc
    exact hq hc

section Runs

variable {Op : Type} {program : ℕ → Op → Program σ χ Unit} {init : σ → Prop}
  {ok : σ → Op → Prop} {release : ℕ → σ → σ}

theorem Steady.toProgram {p : Fallible σ χ ε α} (h : Steady R G K p Q) {s : σ} (hs : K s) :
    wp R G p.toProgram (fun _ _ => True) s :=
  wp_toProgram (wpe_mono (h s hs) (fun _ _ _ => trivial) fun _ _ _ => trivial)

/-- Programs all of whose actions are moves: what the moves preserve holds in
every state of every run. -/
theorem Pool.invariant_of_moves {I : σ → Prop} (hinit : ∀ s, init s → I s)
    (hrefl : ∀ s, R s s) (htrans : ∀ a b c, R a b → R b c → R a c) (hGR : ∀ s s', G s s' → R s s')
    (hrelease : ∀ i s, G s (release i s)) (hI : ∀ s s', I s → G s s' → I s')
    (hop : ∀ i s o, I s → wp R G (program i o) (fun _ _ => True) s) {s : σ}
    {ts : ℕ → Option (Program σ χ Unit)} (h : Pool.Reachable program init ok release s ts) :
    I s ∧ ∀ i p, ts i = some p → wp R G p (fun _ _ => True) s :=
  Pool.invariant (R := fun _ => R) (G := fun _ => G) hinit (fun _ => htrans)
    (fun _ s s' => hI s s') (fun i s hs => hI s _ hs (hrelease i s)) (fun _ _ s s' _ _ => hGR s s')
    (fun _ j s _ _ => hGR s _ (hrelease j s)) (fun _ => hrefl) (fun i s o hs _ => hop i s o hs) h

/-- And every action of every run is a move. -/
theorem Pool.move_of_transition {I : σ → Prop} (hinit : ∀ s, init s → I s)
    (hrefl : ∀ s, R s s) (htrans : ∀ a b c, R a b → R b c → R a c) (hGR : ∀ s s', G s s' → R s s')
    (hrelease : ∀ i s, G s (release i s)) (hI : ∀ s s', I s → G s s' → I s')
    (hop : ∀ i s o, I s → wp R G (program i o) (fun _ _ => True) s) {s s' : σ}
    (h : Pool.Transition program init ok release s s') : I s ∧ G s s' := by
  obtain ⟨ts, i, β, f, k, c, b, hr, ht, hf⟩ := h
  obtain ⟨hs, hall⟩ := Pool.invariant_of_moves hinit hrefl htrans hGR hrelease hI hop hr
  exact ⟨hs, (hall i _ ht s (hrefl s) c b s' hf).1⟩

end Runs

/-! ## Answers -/

section Conjunction

variable {σ χ ε α : Type} {R R' G G' : σ → σ → Prop} {Q Q' : α → σ → Prop}

/-- Two analyses of one program, the second under a weaker rely. -/
theorem wp_and {p : Program σ χ α} {s : σ} (hR : ∀ a b, R a b → R' a b) (h : wp R G p Q s)
    (h' : wp R' G' p Q' s) :
    wp R G p (fun a s' => Q a s' ∧ Q' a s') s := by
  induction p generalizing s with
  | done a => exact ⟨h, h'⟩
  | action f k ih =>
    intro s₁ hr c b s' hf
    obtain ⟨hg, hk⟩ := h s₁ hr c b s' hf
    obtain ⟨-, hk'⟩ := h' s₁ (hR _ _ hr) c b s' hf
    exact ⟨hg, ih b hk hk'⟩

theorem wpe_and {p : Fallible σ χ ε α} {E E' : ε → σ → Prop} {s : σ} (hR : ∀ a b, R a b → R' a b)
    (h : wpe R G p Q E s) (h' : wpe R' G' p Q' E' s) :
    wpe R G p (fun a s' => Q a s' ∧ Q' a s') (fun e s' => E e s' ∧ E' e s') s := by
  apply wp_mono (wp_and hR h h')
  intro r s' hr
  cases r with
  | ok a => exact hr
  | error e => exact hr

/-- A condition that is about no state is known from the start. -/
theorem Steady.given {K : σ → Prop} {P : Prop} {p : Fallible σ χ ε α} (h : P → Steady R G K p Q) :
    Steady R G (fun s => K s ∧ P) p Q := by
  intro s hs
  apply wpe_mono (h hs.2 s hs.1)
  · exact fun _ s' hs' => ⟨⟨hs'.1, hs.2⟩, hs'.2⟩
  · exact fun _ s' hs' => ⟨hs', hs.2⟩

end Conjunction

namespace Discipline

variable {κ δ ε α β : Type} {D : Discipline κ δ} {F : D.Fact} {isolation : Isolation} {slot : ℕ}
  {held : List (κ × ℕ)}

/-- Where `F` is known and the data only grows, an answer of `p` satisfies `Q`. -/
abbrev Answers (D : Discipline κ δ) (F : D.Fact) (p : LeasedProgram κ δ ε α)
    (Q : α → δ → Prop) : Prop :=
  Steady (fun s s' => D.grows s.data s'.data) (fun s s' => D.grows s.data s'.data)
    (fun s => F.holds s.data) p fun a s => Q a s.data

theorem stable_fact (F : D.Fact) :
    Stable (fun s s' : Leased κ δ => D.grows s.data s'.data) fun s => F.holds s.data :=
  fun s s' h hr => F.stable s.data s'.data h hr

variable {Q : α → δ → Prop} {p : LeasedProgram κ δ ε α}

theorem Answers.mono {Q' : α → δ → Prop} (h : D.Answers F p Q) (hQ : ∀ a d, Q a d → Q' a d) :
    D.Answers F p Q' :=
  Steady.mono h fun a s _ hq => hQ a s.data hq

/-- An action that leaves the data alone. -/
theorem answers_still {f : Leased κ δ → Chance → Option (Except ε α × Leased κ δ)}
    (h : ∀ s c r s', f s c = some (r, s') → s'.data = s.data) :
    D.Answers F (atomic f) fun _ _ => True := by
  apply steady_atomic (stable_fact F)
  intro s c r s' hs hf
  have hdata := h s c r s' hf
  rw [hdata]
  exact ⟨D.grows_refl _, hs, fun _ _ => trivial⟩

theorem answers_beginTransaction (failure : ε) :
    D.Answers F (beginTransaction failure isolation slot) fun _ _ => True := by
  apply answers_still
  intro s c r s' hf
  cases isolation with
  | readCommitted =>
    simp only at hf
    split at hf
    · cases hf
      rfl
    · cases hf
      rfl
  | serialized =>
    simp only at hf
    split at hf
    · cases hf
    · split at hf
      · cases hf
        rfl
      · cases hf
        rfl

theorem answers_rollback :
    D.Answers F (rollback slot : LeasedProgram κ δ ε Unit) fun _ _ => True := by
  apply answers_still
  intro s c r s' hf
  cases hf
  rfl

section Leases

variable [DecidableEq κ]

theorem answers_acquire (failure : ε) (key : κ) :
    D.Answers F (acquire failure slot key) fun _ _ => True := by
  apply answers_still
  intro s c r s' hf
  split at hf
  · cases hf
    rfl
  · cases hf
    rfl
  · cases hf
    rfl

end Leases

/-- What a query shows of the data it leaves. -/
theorem answers_watch {p : Query δ ε β} {P : β → δ → Prop}
    (h : ∀ d, F.holds d → wpe D.grows Eq p (fun b d' => P b d') (fun _ _ => True) d) :
    D.Answers F (p.watch : LeasedProgram κ δ ε β) P := by
  intro s hs
  have hwp : wp D.grows Eq p.run (fun r d' => ∀ b, r = .ok b → P b d') s.data := by
    apply wp_mono (h s.data hs)
    intro r d' hd' b hb
    subst hb
    exact hd'
  have hrun : wp (fun s s' => D.grows s.data s'.data) (fun s s' => D.grows s.data s'.data)
      (Program.watch p.run : Program (Leased κ δ) Chance (Except ε β))
      (fun r s' => F.holds s'.data ∧ ∀ b, r = .ok b → P b s'.data) s := by
    revert hwp
    generalize p.run = p
    intro hwp
    induction p generalizing s with
    | done a => exact ⟨hs, hwp⟩
    | action f k ih =>
      intro s₁ hr c b s' hf
      obtain ⟨⟨b, d⟩, hfc, hb⟩ := Option.map_eq_some_iff.mp hf
      cases hb
      obtain ⟨rfl, hk⟩ := hwp s₁.data hr c b d hfc
      exact ⟨D.grows_refl _, ih b s₁ (F.stable _ _ hs hr) hk⟩
  apply wp_mono hrun
  intro r s' hr
  cases r with
  | ok b => exact ⟨hr.1, hr.2 b rfl⟩
  | error e => exact hr.1

/-- A write that, where it does not refuse, lets the data grow into `Q`. -/
def Lands (D : Discipline κ δ) (F : D.Fact) (Q : α → δ → Prop) (write : Write δ ε α) (d : δ) :
    Prop :=
  F.holds d → ∀ a d', write.run d = .ok (a, d') → D.grows d d' ∧ Q a d'

/-- What is to be shown of the body of a transaction for its answer. -/
def BodyAnswers (D : Discipline κ δ) (F : D.Fact) (body : Query δ ε (Write δ ε α))
    (Q : α → δ → Prop) : Prop :=
  ∀ d, F.holds d → wpe D.grows Eq body
    (fun write d' => ∀ d'', D.grows d' d'' → D.Lands F Q write d'') (fun _ _ => True) d

/-- A write that lands wherever it is committed. -/
theorem bodyAnswers_pure {write : Write δ ε α} (h : ∀ d, D.Lands F Q write d) :
    D.BodyAnswers F (pure write : Query δ ε (Write δ ε α)) Q :=
  fun _ _ _ _ => h _

theorem answers_commit [DecidableEq κ] (failure stale : ε) {write : Write δ ε α}
    {K : Leased κ δ → Prop} (hK : Stable (fun s s' => D.grows s.data s'.data) K)
    (hF : ∀ s, K s → F.holds s.data) (hwrite : ∀ s, K s → D.Lands F Q write s.data)
    (hgrow : ∀ s d, K s → D.grows s.data d →
      K { s.stop slot with data := d }) :
    Steady (fun s s' => D.grows s.data s'.data) (fun s s' => D.grows s.data s'.data) K
      (commit failure stale slot held write) fun a s => Q a s.data := by
  apply steady_atomic hK
  intro s c r s' hs hf
  split at hf
  · cases hf
  split at hf
  · cases hf
    exact ⟨D.grows_refl _, hs, nofun⟩
  split at hf
  · cases hf
    exact ⟨D.grows_refl _, hs, nofun⟩
  · cases hf
    exact ⟨D.grows_refl _, hs, nofun⟩
  · rename_i a d hrun _
    cases hf
    obtain ⟨hgrows, hq⟩ := hwrite s hs (hF s hs) a d hrun
    refine ⟨hgrows, hgrow s d hs hgrows, ?_⟩
    intro b hb
    cases hb
    exact hq
  · rename_i a d hrun _
    cases hf
    obtain ⟨hgrows, -⟩ := hwrite s hs (hF s hs) a d hrun
    exact ⟨hgrows, hgrow s d hs hgrows, nofun⟩

/-- The rule for the answer of a transaction. -/
theorem answers_transact [DecidableEq κ] (failure stale : ε) {body : Query δ ε (Write δ ε α)}
    (h : D.BodyAnswers F body Q) :
    D.Answers F (transact failure stale isolation slot held body) Q := by
  refine Steady.andThen (answers_beginTransaction failure) fun _ => ?_
  refine Steady.tryCatch ?_ fun e => Steady.andThen answers_rollback fun _ => steady_throw e
  refine Steady.bind (answers_watch h) fun write => ?_
  apply answers_commit failure stale
  · intro s s' hs hr
    exact ⟨F.stable _ _ hs.1 hr, fun d hd => hs.2 d (D.grows_trans _ _ _ hr hd)⟩
  · exact fun s hs => hs.1
  · exact fun s hs => hs.2 s.data (D.grows_refl _)
  · intro s d hs hd
    exact ⟨F.stable _ _ hs.1 hd, fun d' hd' => hs.2 d' (D.grows_trans _ _ _ hd hd')⟩

/-- The rule for the answer of a section. -/
theorem answers_underLease [DecidableEq κ] (failure : ε) (key : κ)
    {fn : List (κ × ℕ) → LeasedProgram κ δ ε α} (hQ : ∀ a d d', Q a d → D.grows d d' → Q a d')
    (h : ∀ held, D.Answers F (fn held) Q) :
    D.Answers F (underLease failure slot key fn held) Q := by
  refine Steady.andThen (answers_acquire failure key) fun token => ?_
  have hresult : D.Answers F (tryCatch (Except.ok <$> fn (held ++ [(key, token)]))
      fun e => pure (.error e) : LeasedProgram κ δ ε (Except ε α))
      fun result d => ∀ a, result = .ok a → Q a d := by
    have hok : D.Answers F (fn (held ++ [(key, token)]))
        fun a d => ∀ b, (Except.ok a : Except ε α) = .ok b → Q b d := by
      apply (h _).mono
      intro a d hq b hb
      cases hb
      exact hq
    exact Steady.tryCatch (Steady.map hok) fun e => steady_pure fun s _ => nofun
  refine Steady.bind hresult fun result => ?_
  have hkept : Steady (fun s s' => D.grows s.data s'.data) (fun s s' => D.grows s.data s'.data)
      (fun s : Leased κ δ => F.holds s.data ∧ ∀ a, result = .ok a → Q a s.data)
      (release key token : LeasedProgram κ δ ε Unit) fun _ _ => True := by
    apply steady_atomic
    · exact fun s s' hs hr => ⟨F.stable _ _ hs.1 hr, fun a ha => hQ a _ _ (hs.2 a ha) hr⟩
    · intro s c r s' hs hf
      have hdata : s'.data = s.data := by
        split at hf
        · cases hf
          rfl
        · cases hf
          rfl
      rw [hdata]
      exact ⟨D.grows_refl _, hs, fun _ _ => trivial⟩
  refine Steady.andThen hkept fun _ => ?_
  cases result with
  | ok a => exact steady_pure fun s hs => hs.2 a rfl
  | error e => exact steady_throw e

variable {G : (κ → Option δ) → δ → δ → Prop}

/-- What a sound part answered is known in the rest. -/
theorem Sound.learn {p : LeasedProgram κ δ ε β} {g : β → LeasedProgram κ δ ε α} (K : β → D.Fact)
    (hp : D.Sound F G slot held p) (hanswers : D.Answers F p fun b d => (K b).holds d)
    (hg : ∀ b, D.Sound (F.and (K b)) G slot held (g b)) : D.Sound F G slot held (p >>= g) := by
  intro s h
  have hboth := wpe_and (fun _ _ hk => hk.grows) (hp s h) (hanswers s h.fact)
  refine wpe_call hboth ?_ fun _ _ he => he.1
  intro b s' hb
  refine wpe_mono (hg b s' ⟨⟨hb.1.fact, hb.2.2⟩, hb.1.leases⟩) ?_ ?_
  · exact fun _ _ h' => ⟨h'.fact.1, h'.leases⟩
  · exact fun _ _ h' => ⟨h'.fact.1, h'.leases⟩

/-- What any action does to the tokens and the data. -/
structure Onward (D : Discipline κ δ) (s s' : Leased κ δ) : Prop where
  tokens : s.tokens ≤ s'.tokens
  drawn : ∀ token < s.tokens,
    s'.drawnBy token = s.drawnBy token ∧ s'.drawnAt token = s.drawnAt token
  grows : D.grows s.data s'.data

theorem Onward.trans {s s' s'' : Leased κ δ} (h : D.Onward s s') (h' : D.Onward s' s'') :
    D.Onward s s'' := by
  refine ⟨h.tokens.trans h'.tokens, fun token htoken => ?_, D.grows_trans _ _ _ h.grows h'.grows⟩
  obtain ⟨hby, hat⟩ := h.drawn token htoken
  obtain ⟨hby', hat'⟩ := h'.drawn token (htoken.trans_le h.tokens)
  exact ⟨hby'.trans hby, hat'.trans hat⟩

/-- What runs outside the leases of its caller leaves them as they are. -/
theorem Sound.outside (h : D.Sound F G slot [] p) : D.Sound F G slot held p := by
  intro s hs
  have hnone : D.Owned F slot [] s := ⟨hs.fact, nofun⟩
  have htracked := wpe_track (T := D.Onward)
    (fun s => ⟨le_rfl, fun _ _ => ⟨rfl, rfl⟩, D.grows_refl _⟩) (fun _ _ _ => Onward.trans)
    (fun _ _ hk => ⟨hk.tokens, hk.drawn, hk.grows⟩)
    (fun _ _ hg => by
      have hk := hg.kept (slot + 1) (by omega)
      exact ⟨hk.tokens, hk.drawn, hk.grows⟩) (h s hnone)
  have howned {s' : Leased κ δ} (hfact : F.holds s'.data) (hon : D.Onward s s') :
      D.Owned F slot held s' := by
    refine ⟨hfact, fun lease hlease => ?_⟩
    obtain ⟨htoken, hby, hgrows⟩ := hs.leases lease hlease
    obtain ⟨hby', hat⟩ := hon.drawn _ htoken
    exact ⟨htoken.trans_le hon.tokens, hby'.trans hby,
      hat ▸ D.grows_trans _ _ _ hgrows hon.grows⟩
  apply wpe_mono htracked
  · exact fun _ s' hs' => howned hs'.1.fact hs'.2
  · exact fun _ s' hs' => howned hs'.1.fact hs'.2

/-- A condition that is about no data is known from the start. -/
def Fact.constant (D : Discipline κ δ) (P : Prop) : D.Fact := ⟨fun _ => P, fun _ _ h _ => h⟩

theorem Sound.given {P : Prop} (h : P → D.Sound F G slot held p) :
    D.Sound (F.and (Fact.constant D P)) G slot held p := by
  intro s hs
  apply wpe_mono (h hs.fact.2 s ⟨hs.fact.1, hs.leases⟩)
  · exact fun _ s' hs' => ⟨⟨hs'.fact, hs.fact.2⟩, hs'.leases⟩
  · exact fun _ s' hs' => ⟨⟨hs'.fact, hs.fact.2⟩, hs'.leases⟩

end Discipline

end FerrumNexus.Saga
