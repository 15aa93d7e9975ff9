import FerrumNexus.Saga.Runs

/-!
# Data under fenced leases

Parties change one body of data in transactions and order themselves by leases.
A lease may be taken over at any moment, and a transaction commits only while
every lease it runs under is still the one that was taken. What a party knows
about the data is therefore what it saw, moved on by whatever the others may do
to data whose keys it holds: if less than that is left at the commit, there is
no commit. A discipline says what the holder of each key is spared. Under it the
proof about a transaction mentions keys and data, and neither tokens nor other
parties.
-/
namespace FerrumNexus.Saga

/-- Whether others commit between the reads of an open transaction. -/
inductive Isolation
  | serialized
  | readCommitted
  deriving DecidableEq, Repr

/-- How one action ends. A lost one took effect. -/
inductive Fate
  | ok
  | refused
  | lost
  deriving DecidableEq, Repr

/-- What one action meets, with an answer from outside. -/
structure Chance where
  fate : Fate := .ok
  answer : ℕ := 0
  deriving DecidableEq, Repr

/-- Shared data with its lease table. `drawnBy` and `drawnAt` remember who took
a lease under a token, and what the data was. `writer` is the party whose
transaction keeps the others from committing. -/
structure Leased (κ δ : Type) where
  data : δ
  holder : κ → Option ℕ
  tokens : ℕ
  drawnBy : ℕ → ℕ
  drawnAt : ℕ → δ
  writer : Option ℕ

/-- The data as it was when the present holder of a key took it. -/
def Leased.since {κ δ : Type} (s : Leased κ δ) (key : κ) : Option δ :=
  (s.holder key).map s.drawnAt

section Programs

variable {κ δ ε α : Type} [DecidableEq κ]

/-- A program that only looks at the data. -/
abbrev Query (δ ε α : Type) := Fallible δ Chance ε α

abbrev LeasedProgram (κ δ ε α : Type) := Fallible (Leased κ δ) Chance ε α

/-- What a transaction writes at its commit, unless it refuses. -/
abbrev Write (δ ε α : Type) := StateT δ (Except ε) α

/-- One read. -/
def look (failure : ε) (f : δ → α) : Query δ ε α :=
  atomic fun d c => match c.fate with
    | .ok => some (.ok (f d), d)
    | .refused => some (.error failure, d)
    | .lost => some (.error failure, d)

/-- A number from outside: a clock, a random source, another service. -/
def draw : Query δ ε ℕ :=
  atomic fun d c => some (.ok c.answer, d)

/-- A program about the data inside the whole state, where it changes
nothing. -/
def Program.watch : Program δ Chance α → Program (Leased κ δ) Chance α
  | .done a => .done a
  | .action f k =>
    .action (fun s c => (f s.data c).map fun answer => (answer.1, s)) fun b => (k b).watch

def Fallible.watch (p : Query δ ε α) : LeasedProgram κ δ ε α :=
  ExceptT.mk (Program.watch p.run)

/-- The lease of `key` goes to `slot` under a new token. -/
def Leased.take (slot : ℕ) (key : κ) (s : Leased κ δ) : Leased κ δ :=
  { s with
    holder := Function.update s.holder key (some s.tokens)
    tokens := s.tokens + 1
    drawnBy := Function.update s.drawnBy s.tokens slot
    drawnAt := Function.update s.drawnAt s.tokens s.data }

/-- Take a lease, whoever has it. -/
def acquire (failure : ε) (slot : ℕ) (key : κ) : LeasedProgram κ δ ε ℕ :=
  atomic fun s c => match c.fate with
    | .ok => some (.ok s.tokens, s.take slot key)
    | .refused => some (.error failure, s)
    | .lost => some (.error failure, s.take slot key)

/-- Nobody has the lease of `key`. -/
def Leased.drop (key : κ) (s : Leased κ δ) : Leased κ δ :=
  { s with holder := Function.update s.holder key none }

/-- Give a lease back, unless it changed hands. It may stay behind. -/
def release (key : κ) (token : ℕ) : LeasedProgram κ δ ε Unit :=
  atomic fun s c =>
    if c.fate ≠ .refused ∧ s.holder key = some token then some (.ok (), s.drop key)
    else some (.ok (), s)

/-- Run `fn` under the lease of `key` and those already held. -/
def underLease (failure : ε) (slot : ℕ) (key : κ)
    (fn : List (κ × ℕ) → LeasedProgram κ δ ε α) (held : List (κ × ℕ)) :
    LeasedProgram κ δ ε α := do
  let token ← acquire failure slot key
  let result ← tryCatch (Except.ok <$> fn (held ++ [(key, token)])) fun e => pure (.error e)
  release key token
  match result with
  | .ok a => pure a
  | .error e => throw e

def beginTransaction (failure : ε) (isolation : Isolation) (slot : ℕ) :
    LeasedProgram κ δ ε Unit :=
  atomic fun s c => match isolation with
    | .readCommitted => if c.fate = .ok then some (.ok (), s) else some (.error failure, s)
    | .serialized =>
      if s.writer ≠ none then none
      else if c.fate = .ok then some (.ok (), { s with writer := some slot })
      else some (.error failure, s)

/-- An open transaction of `slot` ends. -/
def Leased.stop (slot : ℕ) (s : Leased κ δ) : Leased κ δ :=
  { s with writer := if s.writer = some slot then none else s.writer }

def rollback (slot : ℕ) : LeasedProgram κ δ ε Unit :=
  atomic fun s _ => some (.ok (), s.stop slot)

/-- Every lease is still the one that was taken. -/
def Current (held : List (κ × ℕ)) (s : Leased κ δ) : Prop :=
  ∀ lease ∈ held, s.holder lease.1 = some lease.2

instance (held : List (κ × ℕ)) (s : Leased κ δ) : Decidable (Current held s) :=
  inferInstanceAs (Decidable (∀ lease ∈ held, s.holder lease.1 = some lease.2))

/-- The commit: the fences and the writes, in one step. -/
def commit (failure stale : ε) (slot : ℕ) (held : List (κ × ℕ)) (write : Write δ ε α) :
    LeasedProgram κ δ ε α :=
  atomic fun s c =>
    if s.writer ≠ none ∧ s.writer ≠ some slot then none
    else if ¬ Current held s then some (.error stale, s)
    else match write.run s.data, c.fate with
      | .error e, _ => some (.error e, s)
      | .ok _, .refused => some (.error failure, s)
      | .ok (a, d), .ok => some (.ok a, { s.stop slot with data := d })
      | .ok (_, d), .lost => some (.error failure, { s.stop slot with data := d })

/-- A transaction: reads, and then what they lead to. -/
def transact (failure stale : ε) (isolation : Isolation) (slot : ℕ) (held : List (κ × ℕ))
    (body : Query δ ε (Write δ ε α)) : LeasedProgram κ δ ε α := do
  beginTransaction failure isolation slot
  tryCatch (do
    let write ← body.watch
    commit failure stale slot held write) fun e => do
      rollback slot
      throw e

end Programs

section Queries

variable {δ ε α : Type} {R : δ → δ → Prop} {Q : α → δ → Prop} {d : δ}

theorem wpe_look {failure : ε} {f : δ → α} (h : ∀ d', R d d' → Q (f d') d') :
    wpe R Eq (look failure f) Q (fun _ _ => True) d := by
  rw [look, wpe_atomic]
  intro d' hr c r d'' hf
  split at hf
  · cases hf
    exact ⟨rfl, h d' hr⟩
  · cases hf
    exact ⟨rfl, trivial⟩
  · cases hf
    exact ⟨rfl, trivial⟩

theorem wpe_draw {Q : ℕ → δ → Prop} (h : ∀ d' n, R d d' → Q n d') :
    wpe R Eq (draw : Query δ ε ℕ) Q (fun _ _ => True) d := by
  rw [draw, wpe_atomic]
  intro d' hr c r d'' hf
  cases hf
  exact ⟨rfl, h d' c.answer hr⟩

/-- A query nothing is asked of leaves the data where others move it. -/
theorem wpe_skip (hrefl : R d d) (htrans : ∀ a b c, R a b → R b c → R a c) {p : Query δ ε α}
    (h : Reads p) : wpe R Eq p (fun _ d' => R d d') (fun _ _ => True) d := by
  have hp := h.wpe (P := R d) (fun a b ha hb => htrans d a b ha hb) hrefl
  exact wpe_mono (wp_guarantee hp (fun _ _ hg => hg.1) fun _ _ hq => hq) (fun _ _ hq => hq)
    fun _ _ _ => trivial

theorem reads_look (failure : ε) (f : δ → α) : Reads (look failure f) :=
  fun _ => wpe_look fun _ _ => trivial

theorem reads_draw : Reads (draw : Query δ ε ℕ) := fun _ => wpe_draw fun _ _ _ => trivial

theorem reads_ite {c : Prop} [Decidable c] {p q : Query δ ε α} (hp : Reads p) (hq : Reads q) :
    Reads (if c then p else q) := by
  split
  · exact hp
  · exact hq

theorem reads_forM {β : Type} {f : β → Query δ ε PUnit} (h : ∀ b, Reads (f b)) (l : List β) :
    Reads (l.forM f) := by
  induction l with
  | nil => exact reads_pure _
  | cons b l ih => exact (h b).bind fun _ => ih

end Queries

section Writes

variable {δ ε α β : Type} {d : δ}

@[simp] theorem run_pure (a : α) : (pure a : Write δ ε α).run d = .ok (a, d) := rfl

@[simp] theorem run_throw (e : ε) : (throw e : Write δ ε α).run d = .error e := rfl

@[simp] theorem run_get : (get : Write δ ε δ).run d = .ok (d, d) := rfl

@[simp] theorem run_set (d' : δ) : (set d' : Write δ ε PUnit).run d = .ok (⟨⟩, d') := rfl

@[simp] theorem run_modify (f : δ → δ) : (modify f : Write δ ε PUnit).run d = .ok (⟨⟩, f d) := rfl

theorem run_bind_ok {w : Write δ ε α} {g : α → Write δ ε β} {r : β × δ} :
    (w >>= g).run d = .ok r ↔ ∃ a d₁, w.run d = .ok (a, d₁) ∧ (g a).run d₁ = .ok r := by
  have h : (w >>= g).run d = (w.run d).bind fun x => (g x.1).run x.2 := rfl
  rw [h]
  cases w.run d with
  | error e => simp [Except.bind]
  | ok x =>
    obtain ⟨a, d₁⟩ := x
    simp [Except.bind]

/-- A write that succeeds moves the data within `T`. -/
def Moves (T : δ → δ → Prop) (w : Write δ ε α) : Prop :=
  ∀ d a d', w.run d = .ok (a, d') → T d d'

variable {T : δ → δ → Prop}

theorem moves_pure (hrefl : ∀ d, T d d) (a : α) : Moves T (pure a : Write δ ε α) := by
  intro d _ d' h
  cases h
  exact hrefl d

theorem Moves.bind (htrans : ∀ a b c, T a b → T b c → T a c) {w : Write δ ε α}
    {g : α → Write δ ε β} (hw : Moves T w) (hg : ∀ a, Moves T (g a)) : Moves T (w >>= g) := by
  intro d b d' h
  obtain ⟨a, d₁, h₁, h₂⟩ := run_bind_ok.mp h
  exact htrans _ _ _ (hw d a d₁ h₁) (hg a d₁ b d' h₂)

end Writes

section Restriction

variable {σ χ α : Type}

/-- The program on the steps `allow` accepts; the others block it. -/
def Program.restrict (allow : σ → σ → Prop) [DecidableRel allow] :
    Program σ χ α → Program σ χ α
  | .done a => .done a
  | .action f k =>
    .action (fun s c => (f s c).filter fun answer => allow s answer.2) fun b =>
      (k b).restrict allow

theorem wp_restrict (allow : σ → σ → Prop) [DecidableRel allow] {R G : σ → σ → Prop}
    {p : Program σ χ α} {Q : α → σ → Prop} {s : σ} (h : wp R G p Q s) :
    wp R (fun s s' => G s s' ∧ allow s s') (p.restrict allow) Q s := by
  induction p generalizing s with
  | done a => exact h
  | action f k ih =>
    intro s₁ hr c b s' hf
    obtain ⟨hf, hallow⟩ := Option.filter_eq_some_iff.mp hf
    obtain ⟨hg, hk⟩ := h s₁ hr c b s' hf
    exact ⟨⟨hg, of_decide_eq_true hallow⟩, ih b hk⟩

end Restriction

/-- What the holder of each key is spared, and what every commit does. -/
structure Discipline (κ δ : Type) where
  protects : κ → δ → δ → Prop
  grows : δ → δ → Prop
  protects_refl : ∀ key d, protects key d d
  protects_trans : ∀ key a b c, protects key a b → protects key b c → protects key a c
  grows_refl : ∀ d, grows d d
  grows_trans : ∀ a b c, grows a b → grows b c → grows a c

namespace Discipline

variable {κ δ ε α β : Type} (D : Discipline κ δ)

/-- What stays true of the data once it is. -/
structure Fact where
  holds : δ → Prop
  stable : ∀ d d', holds d → D.grows d d' → holds d'

/-- How the data moves between two reads of a transaction under `keys`. -/
structure Evolves (isolation : Isolation) (keys : List κ) (d d' : δ) : Prop where
  protects : ∀ key ∈ keys, D.protects key d d'
  grows : D.grows d d'
  serialized : isolation = .serialized → d = d'

/-- What a slot finds whatever the others do: its tokens, and for a lease still
under one of them what the key protects. -/
structure Kept (slot : ℕ) (s s' : Leased κ δ) : Prop where
  tokens : s.tokens ≤ s'.tokens
  drawn : ∀ token < s.tokens,
    s'.drawnBy token = s.drawnBy token ∧ s'.drawnAt token = s.drawnAt token
  holder : ∀ key token, token < s.tokens → s.drawnBy token = slot →
    s'.holder key = some token → s.holder key = some token ∧ D.protects key s.data s'.data
  writer : s.writer = some slot → s'.writer = some slot ∧ s.data = s'.data
  grows : D.grows s.data s'.data

/-- One action of `slot`, which changes the data within `G` or not at all. -/
structure Guar (G : (κ → Option δ) → δ → δ → Prop) (slot : ℕ) (s s' : Leased κ δ) : Prop where
  kept : ∀ other, other ≠ slot → D.Kept other s s'
  change : s.data = s'.data ∨ G s.since s.data s'.data

/-- What a slot has: a fact it learned, and leases, tokens it drew since when
the data grew. -/
structure Owned (F : D.Fact) (slot : ℕ) (held : List (κ × ℕ)) (s : Leased κ δ) : Prop where
  fact : F.holds s.data
  leases : ∀ lease ∈ held, lease.2 < s.tokens ∧ s.drawnBy lease.2 = slot ∧
    D.grows (s.drawnAt lease.2) s.data

/-- A write that, where it does not refuse, keeps to the discipline and `G`. -/
def Commits (G : (κ → Option δ) → δ → δ → Prop) (keys : List κ) (seen : κ → δ)
    (write : Write δ ε α) (d : δ) : Prop :=
  ∀ a d', write.run d = .ok (a, d') → D.grows d d' ∧
    (∀ key, key ∉ keys → D.protects key d d') ∧
    ∀ since : κ → Option δ, (∀ key ∈ keys, since key = some (seen key)) → G since d d'

/-- A program that starts and ends with its slot owning `held`. -/
def Sound (F : D.Fact) (G : (κ → Option δ) → δ → δ → Prop) (slot : ℕ) (held : List (κ × ℕ))
    (p : LeasedProgram κ δ ε α) : Prop :=
  ∀ s, D.Owned F slot held s → wpe (D.Kept slot) (D.Guar G slot) p
    (fun _ s' => D.Owned F slot held s') (fun _ s' => D.Owned F slot held s') s

/-- What is to be shown of the body of a transaction under `keys`: wherever its
reads find the data, its write commits. `seen` is the data as it was when each
key was taken. -/
def Body (F : D.Fact) (G : (κ → Option δ) → δ → δ → Prop) (isolation : Isolation)
    (keys : List κ) (body : Query δ ε (Write δ ε α)) : Prop :=
  ∀ (seen : κ → δ) d, F.holds d → (∀ key ∈ keys, D.grows (seen key) d) →
    wpe (D.Evolves isolation keys) Eq body
      (fun write d => ∀ d', D.Evolves isolation keys d d' → D.Commits G keys seen write d')
      (fun _ _ => True) d

/-- Nothing is known. -/
def Fact.none : D.Fact := ⟨fun _ => True, fun _ _ _ _ => trivial⟩

variable {D}

def Fact.and (F K : D.Fact) : D.Fact where
  holds d := F.holds d ∧ K.holds d
  stable d d' h hg := ⟨F.stable d d' h.1 hg, K.stable d d' h.2 hg⟩

variable {F : D.Fact} {G : (κ → Option δ) → δ → δ → Prop} {isolation : Isolation} {keys : List κ}
  {slot : ℕ} {held : List (κ × ℕ)} {s s' s'' : Leased κ δ}

theorem Evolves.refl (isolation : Isolation) (keys : List κ) (d : δ) :
    D.Evolves isolation keys d d :=
  ⟨fun key _ => D.protects_refl key d, D.grows_refl d, fun _ => rfl⟩

theorem Evolves.trans {a b c : δ} (h : D.Evolves isolation keys a b)
    (h' : D.Evolves isolation keys b c) : D.Evolves isolation keys a c where
  protects key hkey := D.protects_trans key a b c (h.protects key hkey) (h'.protects key hkey)
  grows := D.grows_trans a b c h.grows h'.grows
  serialized hs := (h.serialized hs).trans (h'.serialized hs)

theorem Kept.refl (slot : ℕ) (s : Leased κ δ) : D.Kept slot s s where
  tokens := le_rfl
  drawn _ _ := ⟨rfl, rfl⟩
  holder key _ _ _ h := ⟨h, D.protects_refl key s.data⟩
  writer h := ⟨h, rfl⟩
  grows := D.grows_refl s.data

theorem Kept.trans (h : D.Kept slot s s') (h' : D.Kept slot s' s'') : D.Kept slot s s'' where
  tokens := h.tokens.trans h'.tokens
  drawn token htoken := by
    obtain ⟨hby, hat⟩ := h.drawn token htoken
    obtain ⟨hby', hat'⟩ := h'.drawn token (htoken.trans_le h.tokens)
    exact ⟨hby'.trans hby, hat'.trans hat⟩
  holder key token htoken hslot hheld := by
    have hslot' : s'.drawnBy token = slot := (h.drawn token htoken).1.trans hslot
    obtain ⟨hheld', hprot'⟩ := h'.holder key token (htoken.trans_le h.tokens) hslot' hheld
    obtain ⟨hheld, hprot⟩ := h.holder key token htoken hslot hheld'
    exact ⟨hheld, D.protects_trans key _ _ _ hprot hprot'⟩
  writer hw := by
    obtain ⟨hw', hd⟩ := h.writer hw
    obtain ⟨hw'', hd'⟩ := h'.writer hw'
    exact ⟨hw'', hd.trans hd'⟩
  grows := D.grows_trans _ _ _ h.grows h'.grows

theorem Guar.refl (slot : ℕ) (s : Leased κ δ) : D.Guar G slot s s :=
  ⟨fun other _ => Kept.refl other s, .inl rfl⟩

theorem Owned.kept (h : D.Owned F slot held s) (hk : D.Kept slot s s') : D.Owned F slot held s' := by
  refine ⟨F.stable _ _ h.fact hk.grows, fun lease hlease => ?_⟩
  obtain ⟨hlt, hby, hgrows⟩ := h.leases lease hlease
  obtain ⟨hby', hat'⟩ := hk.drawn lease.2 hlt
  refine ⟨hlt.trans_le hk.tokens, hby'.trans hby, ?_⟩
  exact hat' ▸ D.grows_trans _ _ _ hgrows hk.grows

/-- A slot that lost a lease never has all of them again; until then what its
keys protect is as it left it. -/
theorem Owned.current (h : D.Owned F slot held s) (hk : D.Kept slot s s') (hc : Current held s') :
    Current held s ∧ (∀ lease ∈ held, D.protects lease.1 s.data s'.data) ∧
      ∀ lease ∈ held, s'.since lease.1 = s.since lease.1 := by
  have hheld : ∀ lease ∈ held, s.holder lease.1 = some lease.2 ∧
      D.protects lease.1 s.data s'.data := by
    intro lease hlease
    obtain ⟨hlt, hby, -⟩ := h.leases lease hlease
    exact hk.holder lease.1 lease.2 hlt hby (hc lease hlease)
  refine ⟨fun lease hlease => (hheld lease hlease).1, fun lease hlease => (hheld lease hlease).2, ?_⟩
  intro lease hlease
  have hat := (hk.drawn lease.2 (h.leases lease hlease).1).2
  rw [Leased.since, Leased.since, hc lease hlease, (hheld lease hlease).1, Option.map_some,
    Option.map_some, hat]

section Rules

variable {p : LeasedProgram κ δ ε α}

theorem sound_pure (a : α) : D.Sound F G slot held (pure a : LeasedProgram κ δ ε α) :=
  fun _ h => h

theorem sound_throw (e : ε) : D.Sound F G slot held (throw e : LeasedProgram κ δ ε α) :=
  fun _ h => h

theorem Sound.bind {q : LeasedProgram κ δ ε β} {g : β → LeasedProgram κ δ ε α}
    (hq : D.Sound F G slot held q) (hg : ∀ b, D.Sound F G slot held (g b)) :
    D.Sound F G slot held (q >>= g) :=
  fun s h => wpe_call (hq s h) (fun b s' h' => hg b s' h') fun _ _ h' => h'

theorem Sound.map (hp : D.Sound F G slot held p) (g : α → β) : D.Sound F G slot held (g <$> p) :=
  fun s h => (wpe_map p g).mpr (hp s h)

theorem Sound.tryCatch {handler : ε → LeasedProgram κ δ ε α} (hp : D.Sound F G slot held p)
    (hh : ∀ e, D.Sound F G slot held (handler e)) :
    D.Sound F G slot held (tryCatch p handler) :=
  fun s h => (wpe_tryCatch p handler).mpr (wpe_mono (hp s h) (fun _ _ h' => h')
    fun e s' h' => hh e s' h')

theorem sound_ite {c : Prop} [Decidable c] {q : LeasedProgram κ δ ε α}
    (hp : c → D.Sound F G slot held p) (hq : ¬ c → D.Sound F G slot held q) :
    D.Sound F G slot held (if c then p else q) := by
  split
  · rename_i hc
    exact hp hc
  · rename_i hc
    exact hq hc

/-- Whatever a query answers, it left everything as it was. -/
theorem sound_watch (p : Query δ ε α) : D.Sound F G slot held (p.watch : LeasedProgram κ δ ε α) := by
  intro s h
  refine wp_mono (Q := fun _ s' => D.Owned F slot held s') ?_ ?_
  · change wp _ _ (Program.watch p.run) _ s
    generalize p.run = p
    induction p generalizing s with
    | done a => exact h
    | action f k ih =>
      intro s₁ hr c b s' hf
      obtain ⟨r, -, hb⟩ := Option.map_eq_some_iff.mp hf
      cases hb
      exact ⟨Guar.refl slot s₁, ih r.1 s₁ (h.kept hr)⟩
  · rintro (e | a) s' h'
    · exact h'
    · exact h'

/-- What a query learned is known from then on. -/
theorem sound_learn {p : Query δ ε β} {g : β → LeasedProgram κ δ ε α} (K : β → D.Fact)
    (hp : ∀ d, F.holds d → wpe D.grows Eq p (fun b d' => (K b).holds d') (fun _ _ => True) d)
    (hg : ∀ b, D.Sound (F.and (K b)) G slot held (g b)) :
    D.Sound F G slot held (p.watch >>= g) := by
  intro s h
  refine wpe_call (M := fun b s' => D.Owned (F.and (K b)) slot held s')
    (F := fun _ s' => D.Owned F slot held s') ?_ ?_ fun _ _ h' => h'
  · have hrun : wp (D.Kept slot) (D.Guar G slot)
        (Program.watch p.run : Program (Leased κ δ) Chance (Except ε β))
        (fun r s' => D.Owned F slot held s' ∧ ∀ b, r = .ok b → (K b).holds s'.data) s := by
      have hwp : wp D.grows Eq p.run (fun r d' => ∀ b, r = .ok b → (K b).holds d') s.data := by
        refine wp_mono (hp s.data h.fact) ?_
        rintro (e | b) d' hd'
        · exact nofun
        · rintro _ ⟨⟩
          exact hd'
      revert hwp
      generalize p.run = p
      intro hwp
      induction p generalizing s with
      | done a => exact ⟨h, hwp⟩
      | action f k ih =>
        intro s₁ hr c b s' hf
        obtain ⟨⟨b, d⟩, hfc, hb⟩ := Option.map_eq_some_iff.mp hf
        cases hb
        obtain ⟨rfl, hk⟩ := hwp s₁.data hr.grows c b d hfc
        exact ⟨Guar.refl slot s₁, ih b s₁ (h.kept hr) hk⟩
    refine wp_mono hrun ?_
    rintro (e | b) s' ⟨hs', hb⟩
    · exact hs'
    · exact ⟨⟨hs'.fact, hb b rfl⟩, hs'.leases⟩
  · intro b s' hs'
    refine wpe_mono (hg b s' hs') ?_ ?_
    · exact fun _ _ h' => ⟨h'.fact.1, h'.leases⟩
    · exact fun _ _ h' => ⟨h'.fact.1, h'.leases⟩

/-- What a query shows about the data holds for as long as the leases do. -/
theorem wp_watch {seen : κ → δ} {p : Program δ Chance β} {Q : β → δ → Prop}
    (h : D.Owned F slot held s) (hw : isolation = .serialized → s.writer = some slot)
    (hc : Current held s → (∀ lease ∈ held, s.since lease.1 = some (seen lease.1)) ∧
      wp (D.Evolves isolation (held.map Prod.fst)) Eq p Q s.data) :
    wp (D.Kept slot) (D.Guar G slot) (p.watch : Program (Leased κ δ) Chance β) (fun b s' =>
      D.Owned F slot held s' ∧ (isolation = .serialized → s'.writer = some slot) ∧
        (Current held s' → (∀ lease ∈ held, s'.since lease.1 = some (seen lease.1)) ∧
          Q b s'.data)) s := by
  induction p generalizing s with
  | done a => exact ⟨h, hw, hc⟩
  | action f k ih =>
    intro s₁ hr c b s' hf
    obtain ⟨⟨b, d⟩, hfc, hb⟩ := Option.map_eq_some_iff.mp hf
    cases hb
    refine ⟨Guar.refl slot s₁, ih b (h.kept hr) (fun hs => (hr.writer (hw hs)).1) ?_⟩
    intro hc₁
    obtain ⟨hcs, hprot, hsince⟩ := h.current hr hc₁
    obtain ⟨hseen, hwp⟩ := hc hcs
    have hev : D.Evolves isolation (held.map Prod.fst) s.data s₁.data := by
      refine ⟨?_, hr.grows, fun hs => (hr.writer (hw hs)).2⟩
      intro key hkey
      obtain ⟨lease, hlease, rfl⟩ := List.mem_map.mp hkey
      exact hprot lease hlease
    obtain ⟨rfl, hk⟩ := hwp _ hev c b d hfc
    exact ⟨fun lease hlease => (hsince lease hlease).trans (hseen lease hlease), hk⟩

theorem Owned.of_append {more : List (κ × ℕ)} (h : D.Owned F slot (held ++ more) s) :
    D.Owned F slot held s :=
  ⟨h.fact, fun lease hlease => h.leases lease (List.mem_append_left more hlease)⟩

theorem guar_stop (slot : ℕ) (s : Leased κ δ) : D.Guar G slot s (s.stop slot) := by
  refine ⟨fun other hne => ⟨le_rfl, fun _ _ => ⟨rfl, rfl⟩, fun key _ _ _ hheld =>
    ⟨hheld, D.protects_refl key _⟩, ?_, D.grows_refl _⟩, .inl rfl⟩
  intro hw
  have hslot : s.writer ≠ some slot := fun heq => hne (Option.some.inj (hw.symm.trans heq))
  exact ⟨(if_neg hslot).trans hw, rfl⟩

/-- A commit that keeps to the discipline, by a slot no other keeps out. -/
theorem guar_commit {d : δ} (h : D.Owned F slot held s) (hc : Current held s)
    (hw : ¬ (s.writer ≠ none ∧ s.writer ≠ some slot)) (hgrows : D.grows s.data d)
    (hprot : ∀ key, key ∉ held.map Prod.fst → D.protects key s.data d)
    (hG : G s.since s.data d) : D.Guar G slot s { s.stop slot with data := d } := by
  refine ⟨fun other hne => ⟨le_rfl, fun _ _ => ⟨rfl, rfl⟩, ?_, ?_, hgrows⟩, .inr hG⟩
  · intro key token _ hother hheld
    refine ⟨hheld, hprot key ?_⟩
    intro hkey
    obtain ⟨lease, hlease, rfl⟩ := List.mem_map.mp hkey
    have htoken : token = lease.2 := Option.some.inj (hheld.symm.trans (hc lease hlease))
    exact hne (hother.symm.trans (htoken ▸ (h.leases lease hlease).2.1))
  · intro hother
    rcases not_and_or.mp hw with hnone | hslot
    · rw [not_not.mp hnone] at hother
      cases hother
    · rw [not_not.mp hslot, Option.some.injEq] at hother
      exact absurd hother.symm hne

/-- The rule for a transaction: its body, verified over the data alone. -/
theorem sound_transact (failure stale : ε) {body : Query δ ε (Write δ ε α)}
    (hbody : D.Body F G isolation (held.map Prod.fst) body) :
    D.Sound F G slot held (transact failure stale isolation slot held body) := by
  intro s h
  refine wpe_call (M := fun _ s' => D.Owned F slot held s' ∧
    (isolation = .serialized → s'.writer = some slot)) (F := fun _ s' => D.Owned F slot held s')
    ?_ ?_ fun _ _ h' => h'
  · rw [beginTransaction, wpe_atomic]
    intro s₁ hr c r s' hf
    have h₁ := h.kept hr
    cases isolation with
    | readCommitted =>
      simp only at hf
      split at hf
      · cases hf
        exact ⟨Guar.refl slot s₁, h₁, nofun⟩
      · cases hf
        exact ⟨Guar.refl slot s₁, h₁⟩
    | serialized =>
      simp only at hf
      split at hf
      · contradiction
      · rename_i hfree
        split at hf
        · cases hf
          refine ⟨⟨fun other _ => ⟨le_rfl, fun _ _ => ⟨rfl, rfl⟩, fun key _ _ _ hheld =>
            ⟨hheld, D.protects_refl key _⟩, ?_, D.grows_refl _⟩, .inl rfl⟩,
            ⟨h₁.fact, h₁.leases⟩, fun _ => rfl⟩
          intro hw
          exact absurd (hw ▸ Option.some_ne_none other) hfree
        · cases hf
          exact ⟨Guar.refl slot s₁, h₁⟩
  · rintro - s₁ ⟨h₁, hw₁⟩
    rw [wpe_tryCatch]
    have hhandler : ∀ e : ε, D.Sound F G slot held (do
        rollback slot
        throw e : LeasedProgram κ δ ε α) := by
      intro e
      refine Sound.bind ?_ fun _ => sound_throw e
      intro s h
      rw [rollback, wpe_atomic]
      intro s₁ hr c r s' hf
      have h₁ := h.kept hr
      cases hf
      exact ⟨guar_stop slot s₁, h₁.fact, h₁.leases⟩
    refine wpe_mono (Q := fun _ s' => D.Owned F slot held s')
      (E := fun _ s' => D.Owned F slot held s') ?_ (fun _ _ h' => h') fun e s' h' => hhandler e s' h'
    -- the keys as they were taken, where the slot still has them
    let seen : κ → δ := fun key => (s₁.since key).getD s₁.data
    have hstart : Current held s₁ → (∀ lease ∈ held, s₁.since lease.1 = some (seen lease.1)) ∧
        wpe (D.Evolves isolation (held.map Prod.fst)) Eq body
          (fun write d => ∀ d', D.Evolves isolation (held.map Prod.fst) d d' →
            D.Commits G (held.map Prod.fst) seen write d') (fun _ _ => True) s₁.data := by
      intro hc
      have hseen : ∀ lease ∈ held, s₁.since lease.1 = some (s₁.drawnAt lease.2) := by
        intro lease hlease
        rw [Leased.since, hc lease hlease, Option.map_some]
      refine ⟨fun lease hlease => ?_, hbody seen s₁.data h₁.fact ?_⟩
      · simp only [seen, hseen lease hlease, Option.getD_some]
      · intro key hkey
        obtain ⟨lease, hlease, rfl⟩ := List.mem_map.mp hkey
        simp only [seen, hseen lease hlease, Option.getD_some]
        exact (h₁.leases lease hlease).2.2
    have hwatch := wp_watch (G := G) h₁ hw₁ hstart
    refine wpe_call (M := fun write s' => D.Owned F slot held s' ∧
      (isolation = .serialized → s'.writer = some slot) ∧ (Current held s' →
        (∀ lease ∈ held, s'.since lease.1 = some (seen lease.1)) ∧
        ∀ d', D.Evolves isolation (held.map Prod.fst) s'.data d' →
          D.Commits G (held.map Prod.fst) seen write d')) (F := fun _ s' => D.Owned F slot held s')
      ?_ ?_ fun _ _ h' => h'
    · refine wp_mono hwatch ?_
      rintro (e | write) s' hs'
      · exact hs'.1
      · exact hs'
    · rintro write s₂ ⟨h₂, hw₂, hc₂⟩
      rw [commit, wpe_atomic]
      intro s₃ hr c r s' hf
      have h₃ := h₂.kept hr
      split at hf
      · contradiction
      rename_i hfree
      split at hf
      · cases hf
        exact ⟨Guar.refl slot s₃, h₃⟩
      rename_i hcur
      have hcur : Current held s₃ := not_not.mp hcur
      obtain ⟨hcur₂, hprot, hsince⟩ := h₂.current hr hcur
      obtain ⟨hseen, hcommit⟩ := hc₂ hcur₂
      have hev : D.Evolves isolation (held.map Prod.fst) s₂.data s₃.data := by
        refine ⟨?_, hr.grows, fun hs => (hr.writer (hw₂ hs)).2⟩
        intro key hkey
        obtain ⟨lease, hlease, rfl⟩ := List.mem_map.mp hkey
        exact hprot lease hlease
      have hguar : ∀ a d, write.run s₃.data = .ok (a, d) →
          D.Guar G slot s₃ { s₃.stop slot with data := d } ∧
            D.Owned F slot held { s₃.stop slot with data := d } := by
        intro a d hrun
        obtain ⟨hgrows, hkeys, hG⟩ := hcommit _ hev a d hrun
        refine ⟨guar_commit h₃ hcur hfree hgrows hkeys (hG _ ?_), ?_⟩
        · intro key hkey
          obtain ⟨lease, hlease, rfl⟩ := List.mem_map.mp hkey
          exact (hsince lease hlease).trans (hseen lease hlease)
        · refine ⟨F.stable _ _ h₃.fact hgrows, fun lease hlease => ?_⟩
          obtain ⟨hlt, hby, hgrown⟩ := h₃.leases lease hlease
          exact ⟨hlt, hby, D.grows_trans _ _ _ hgrown hgrows⟩
      split at hf
      · cases hf
        exact ⟨Guar.refl slot s₃, h₃⟩
      · cases hf
        exact ⟨Guar.refl slot s₃, h₃⟩
      · rename_i a d hrun _
        cases hf
        exact hguar a d hrun
      · rename_i a d hrun _
        cases hf
        exact hguar a d hrun

variable [DecidableEq κ]

theorem Owned.take (h : D.Owned F slot held s) (key : κ) :
    D.Owned F slot (held ++ [(key, s.tokens)]) (s.take slot key) := by
  refine ⟨h.fact, fun lease hlease => ?_⟩
  rcases List.mem_append.mp hlease with hold | hnew
  · obtain ⟨hlt, hby, hgrows⟩ := h.leases lease hold
    refine ⟨hlt.trans (Nat.lt_succ_self _), ?_, ?_⟩
    · exact (Function.update_of_ne hlt.ne _ _).trans hby
    · simpa only [Leased.take, Function.update_of_ne hlt.ne] using hgrows
  · obtain rfl := List.mem_singleton.mp hnew
    refine ⟨Nat.lt_succ_self _, Function.update_self _ _ _, ?_⟩
    simpa only [Leased.take, Function.update_self] using D.grows_refl s.data

/-- A new token is nobody's lease but the taker's. -/
theorem guar_take (slot : ℕ) (key : κ) (s : Leased κ δ) : D.Guar G slot s (s.take slot key) := by
  refine ⟨fun other _ => ⟨Nat.le_succ _, ?_, ?_, fun hw => ⟨hw, rfl⟩, D.grows_refl _⟩, .inl rfl⟩
  · intro token htoken
    exact ⟨Function.update_of_ne htoken.ne _ _, Function.update_of_ne htoken.ne _ _⟩
  · intro key' token htoken _ hheld
    refine ⟨?_, D.protects_refl _ _⟩
    by_cases hkey : key' = key
    · subst hkey
      simp only [Leased.take, Function.update_self, Option.some.injEq] at hheld
      omega
    · simpa only [Leased.take, Function.update_of_ne hkey] using hheld

theorem guar_drop (slot : ℕ) (key : κ) (s : Leased κ δ) : D.Guar G slot s (s.drop key) := by
  refine ⟨fun other _ => ⟨le_rfl, fun _ _ => ⟨rfl, rfl⟩, ?_, fun hw => ⟨hw, rfl⟩,
    D.grows_refl _⟩, .inl rfl⟩
  intro key' token _ _ hheld
  refine ⟨?_, D.protects_refl _ _⟩
  by_cases hkey : key' = key
  · subst hkey
    simp only [Leased.drop, Function.update_self] at hheld
    cases hheld
  · simpa only [Leased.drop, Function.update_of_ne hkey] using hheld

theorem sound_release (key : κ) (token : ℕ) :
    D.Sound F G slot held (release key token : LeasedProgram κ δ ε Unit) := by
  intro s h
  rw [release, wpe_atomic]
  intro s₁ hr c r s' hf
  have h₁ := h.kept hr
  split at hf
  · cases hf
    exact ⟨guar_drop slot key s₁, h₁.fact, h₁.leases⟩
  · cases hf
    exact ⟨Guar.refl slot s₁, h₁⟩

/-- The rule for a section: what it runs owns one lease more. -/
theorem sound_underLease (failure : ε) (key : κ)
    {fn : List (κ × ℕ) → LeasedProgram κ δ ε α}
    (hfn : ∀ token, D.Sound F G slot (held ++ [(key, token)]) (fn (held ++ [(key, token)]))) :
    D.Sound F G slot held (underLease failure slot key fn held) := by
  intro s h
  refine wpe_call (M := fun token s' => D.Owned F slot (held ++ [(key, token)]) s')
    (F := fun _ s' => D.Owned F slot held s') ?_ ?_ fun _ _ h' => h'
  · rw [acquire, wpe_atomic]
    intro s₁ hr c r s' hf
    have h₁ := h.kept hr
    split at hf
    · cases hf
      exact ⟨guar_take slot key s₁, h₁.take key⟩
    · cases hf
      exact ⟨Guar.refl slot s₁, h₁⟩
    · cases hf
      exact ⟨guar_take slot key s₁, (h₁.take key).of_append⟩
  · intro token s' hs'
    have hrun := ((hfn token).map Except.ok).tryCatch (fun e => sound_pure (.error e)) s' hs'
    refine wpe_call hrun ?_ fun _ _ h' => h'.of_append
    intro result s₁ hs₁
    refine Sound.bind (sound_release key token) ?_ s₁ hs₁.of_append
    intro _
    cases result with
    | ok a => exact sound_pure a
    | error e => exact sound_throw e

end Rules

section Runs

variable {Op : Type} {program : ℕ → Op → Program (Leased κ δ) Chance Unit}
  {init : Leased κ δ → Prop} {ok : Leased κ δ → Op → Prop}
  {ts : ℕ → Option (Program (Leased κ δ) Chance Unit)}

theorem Sound.toProgram {p : LeasedProgram κ δ ε α} (hp : D.Sound (Fact.none D) G slot [] p) (s : Leased κ δ) :
    wp (D.Kept slot) (D.Guar G slot) p.toProgram (fun _ _ => True) s :=
  wp_toProgram (wpe_mono (hp s ⟨trivial, fun _ h => by cases h⟩) (fun _ _ _ => trivial) fun _ _ _ => trivial)

/-- Sound programs keep to the discipline in every run, so what every commit
within `G` preserves holds in every state. -/
theorem invariant {I : δ → Prop} (hinit : ∀ s, init s → I s.data)
    (hI : ∀ since d d', I d → G since d d' → I d')
    (hop : ∀ i o s, wp (D.Kept i) (D.Guar G i) (program i o) (fun _ _ => True) s)
    (h : Pool.Reachable program init ok Leased.stop s ts) :
    I s.data ∧ ∀ i p, ts i = some p → wp (D.Kept i) (D.Guar G i) p (fun _ _ => True) s := by
  refine Pool.invariant (I := fun s => I s.data) hinit ?_ ?_ ?_ ?_ ?_ Kept.refl ?_ h
  · exact fun _ _ _ _ => Kept.trans
  · intro i s s' hs hguar
    rcases hguar.change with hsame | hchange
    · exact hsame ▸ hs
    · exact hI _ _ _ hs hchange
  · exact fun _ _ hs => hs
  · intro i j s s' hne _ hguar
    exact hguar.kept i hne
  · intro i j s hne _
    exact (guar_stop (G := G) j s).kept i hne
  · exact fun i s o _ _ => hop i o s

end Runs

end Discipline

/-- One action of some run leads from `s` to `s'`. -/
def Pool.Transition {σ χ Op : Type} (program : ℕ → Op → Program σ χ Unit) (init : σ → Prop)
    (ok : σ → Op → Prop) (release : ℕ → σ → σ) (s s' : σ) : Prop :=
  ∃ (ts : ℕ → Option (Program σ χ Unit)) (i : ℕ) (β : Type) (f : σ → χ → Option (β × σ))
    (k : β → Program σ χ Unit) (c : χ) (b : β), Pool.Reachable program init ok release s ts ∧
      ts i = some (.action f k) ∧ f s c = some (b, s')

theorem Pool.exists_reachable_of_exec {σ χ Op : Type} (program : ℕ → Op → Program σ χ Unit)
    (init : σ → Prop) (ok : σ → Op → Prop) (release : ℕ → σ → σ) (es : List (Pool.Event Op χ))
    (P : σ → Bool) {s : σ} (hok : ∀ s o, ok s o) (h : init s)
    (he : ((Pool.exec program release es s fun _ => none).any fun x => P x.1) = true) :
    ∃ s' ts, Pool.Reachable program init ok release s' ts ∧ P s' = true := by
  obtain ⟨⟨s', ts⟩, hx, hP⟩ := (Option.any_eq_true _ _).mp he
  exact ⟨s', ts, Pool.reachable_exec hok (.init h) hx, hP⟩

/-- A schedule after which slot `i` takes an action with a decidable
property. -/
theorem Pool.exists_transition {σ χ Op : Type} (program : ℕ → Op → Program σ χ Unit)
    (init : σ → Prop) (ok : σ → Op → Prop) (release : ℕ → σ → σ) (es : List (Pool.Event Op χ))
    (i : ℕ) (c : χ) (P : σ → σ → Bool) {s : σ} (hok : ∀ s o, ok s o) (h : init s)
    (he : ((Pool.exec program release es s fun _ => none).any fun x =>
      (x.2 i).any fun p => p.next (P x.1) c x.1) = true) :
    ∃ s s', Pool.Transition program init ok release s s' ∧ P s s' = true := by
  obtain ⟨⟨s₁, ts⟩, hx, hnext⟩ := (Option.any_eq_true _ _).mp he
  obtain ⟨p, hp, hnext⟩ := (Option.any_eq_true _ _).mp hnext
  have hr := Pool.reachable_exec hok (.init h) hx
  cases p with
  | done a => cases hnext
  | action f k =>
    obtain ⟨⟨b, s'⟩, hf, hP⟩ := (Option.any_eq_true _ _).mp hnext
    exact ⟨s₁, s', ⟨ts, i, _, f, k, c, b, hr, hp, hf⟩, hP⟩

/-- Every action of every run of sound programs is within `G`, from a state
with the invariant. -/
theorem Discipline.transition {κ δ Op : Type} {D : Discipline κ δ}
    {G : (κ → Option δ) → δ → δ → Prop} {program : ℕ → Op → Program (Leased κ δ) Chance Unit}
    {init : Leased κ δ → Prop} {ok : Leased κ δ → Op → Prop} {I : δ → Prop}
    (hinit : ∀ s, init s → I s.data) (hI : ∀ since d d', I d → G since d d' → I d')
    (hop : ∀ i o s, wp (D.Kept i) (D.Guar G i) (program i o) (fun _ _ => True) s)
    {s s' : Leased κ δ} (h : Pool.Transition program init ok Leased.stop s s') :
    I s.data ∧ (s.data = s'.data ∨ G s.since s.data s'.data) := by
  obtain ⟨ts, i, β, f, k, c, b, hr, ht, hf⟩ := h
  obtain ⟨hs, hall⟩ := D.invariant hinit hI hop hr
  exact ⟨hs, (hall i _ ht s (Discipline.Kept.refl i s) c b s' hf).1.change⟩

end FerrumNexus.Saga
