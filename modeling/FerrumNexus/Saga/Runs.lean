import FerrumNexus.Saga.Fallible

/-!
# Runs of many programs

Two systems are built from the same programs. In a serial run one operation
runs at a time, from an idle state to its end or to a crash. In an interleaved
run any number of operations are in progress, each in a slot of its own, and
every action of any of them is a step. An operation is an element of `Op`
turned into a program; `ok` restricts the states in which it may start, which
is how a run is held to a condition. For both systems an invariant of all
reachable states follows from weakest preconditions of the operations alone.
-/
namespace FerrumNexus.Saga

variable {σ χ ε α : Type}

/-- Forget the outcome of an operation, for use in a run. -/
def Fallible.toProgram (p : Fallible σ χ ε α) : Program σ χ Unit :=
  p.run >>= fun _ => .done ()

theorem wp_toProgram {R G : σ → σ → Prop} {p : Fallible σ χ ε α} {Q : σ → Prop} {s : σ}
    (h : wpe R G p (fun _ => Q) (fun _ => Q) s) : wp R G p.toProgram (fun _ => Q) s := by
  simp only [Fallible.toProgram, wp_bind, wp_done]
  refine wp_mono h ?_
  rintro (e | a) s' hq
  · exact hq
  · exact hq

namespace Serial

variable {Op : Type} (program : Op → Program σ χ Unit) (init : σ → Prop) (ok : σ → Op → Prop)

/-- The states of a serial run, with the program in progress. -/
inductive Reachable : σ → Option (Program σ χ Unit) → Prop
  | init {s : σ} (h : init s) : Reachable s none
  | start {s : σ} (o : Op) (h : Reachable s none) (hok : ok s o) :
      Reachable s (some (program o))
  | step {s s' : σ} {β : Type} {f : σ → χ → Option (β × σ)} {k : β → Program σ χ Unit} {b : β}
      (c : χ) (h : Reachable s (some (.action f k))) (hf : f s c = some (b, s')) :
      Reachable s' (some (k b))
  | finish {s : σ} (h : Reachable s (some (.done ()))) : Reachable s none
  | crash {s : σ} {p : Program σ χ Unit} (h : Reachable s (some p)) : Reachable s none

variable {program init ok}

/-- An operation started in a state satisfying `I` that keeps `I` at each of
its own actions keeps it in every run, crashes included. -/
theorem invariant {I : σ → Prop} (hinit : ∀ s, init s → I s)
    (hop : ∀ s o, I s → ok s o → wp Eq (fun _ s' => I s') (program o) (fun _ _ => True) s)
    {s : σ} {p : Option (Program σ χ Unit)} (h : Reachable program init ok s p) : I s := by
  suffices hs : I s ∧ ∀ q, p = some q → wp Eq (fun _ s' => I s') q (fun _ _ => True) s from hs.1
  induction h with
  | init h => exact ⟨hinit _ h, by simp⟩
  | start o _ hok ih =>
    refine ⟨ih.1, ?_⟩
    rintro q ⟨⟩
    exact hop _ o ih.1 hok
  | step c _ hf ih =>
    have hw := ih.2 _ rfl _ rfl c _ _ hf
    refine ⟨hw.1, ?_⟩
    rintro q ⟨⟩
    exact hw.2
  | finish _ ih => exact ⟨ih.1, by simp⟩
  | crash _ ih => exact ⟨ih.1, by simp⟩

variable (program init ok) in
/-- One action of some run leads from `s` to `s'`. -/
def Transition (s s' : σ) : Prop :=
  ∃ (β : Type) (f : σ → χ → Option (β × σ)) (k : β → Program σ χ Unit) (c : χ) (b : β),
    Reachable program init ok s (some (.action f k)) ∧ f s c = some (b, s')

/-- The same for a property of single actions: it holds of every action of
every run. -/
theorem transition {I : σ → Prop} {G : σ → σ → Prop} (hinit : ∀ s, init s → I s)
    (hop : ∀ s o, I s → ok s o →
      wp Eq (fun s s' => G s s' ∧ I s') (program o) (fun _ _ => True) s)
    {s s' : σ} (h : Transition program init ok s s') : G s s' := by
  have hall : ∀ {s : σ} {p : Option (Program σ χ Unit)}, Reachable program init ok s p →
      I s ∧ ∀ q, p = some q →
        wp Eq (fun s s' => G s s' ∧ I s') q (fun _ _ => True) s := by
    intro s p hr
    induction hr with
    | init h => exact ⟨hinit _ h, by simp⟩
    | start o _ hok ih =>
      refine ⟨ih.1, ?_⟩
      rintro q ⟨⟩
      exact hop _ o ih.1 hok
    | step c _ hf ih =>
      have hw := ih.2 _ rfl _ rfl c _ _ hf
      refine ⟨hw.1.2, ?_⟩
      rintro q ⟨⟩
      exact hw.2
    | finish _ ih => exact ⟨ih.1, by simp⟩
    | crash _ ih => exact ⟨ih.1, by simp⟩
  obtain ⟨β, f, k, c, b, hr, hf⟩ := h
  exact ((hall hr).2 _ rfl s rfl c b s' hf).1.1

theorem reachable_advance {p p' : Program σ χ Unit} {cs : List χ} {s s' : σ}
    (h : Reachable program init ok s (some p)) (he : p.advance cs s = some (p', s')) :
    Reachable program init ok s' (some p') := by
  induction p generalizing cs s with
  | done a =>
    cases cs with
    | nil =>
      cases he
      exact h
    | cons c cs => cases he
  | action f k ih =>
    cases cs with
    | nil =>
      cases he
      exact h
    | cons c cs =>
      simp only [Program.advance] at he
      split at he
      · contradiction
      · rename_i b s₁ hf
        exact ih b (.step c h hf) he

/-- An operation that advances to an action with a decidable property is part
of a run that takes it. -/
theorem exists_transition (o : Op) (cs : List χ) (c : χ) (P : σ → σ → Bool) {s : σ}
    (h : Reachable program init ok s none) (hok : ok s o)
    (he : (((program o).advance cs s).any fun x => x.1.next (P x.2) c x.2) = true) :
    ∃ s s', Transition program init ok s s' ∧ P s s' = true := by
  obtain ⟨⟨p, s₁⟩, hp, hnext⟩ := (Option.any_eq_true _ _).mp he
  have hr := reachable_advance (.start o h hok) hp
  cases p with
  | done a => cases hnext
  | action f k =>
    obtain ⟨⟨b, s'⟩, hf, hP⟩ := (Option.any_eq_true _ _).mp hnext
    exact ⟨s₁, s', ⟨_, f, k, c, b, hr, hf⟩, hP⟩

theorem reachable_exec_aux {p : Program σ χ Unit} {cs : List χ} {s s' : σ} {u : Unit}
    (h : Reachable program init ok s (some p)) (he : p.exec cs s = some (u, s')) :
    Reachable program init ok s' none := by
  induction p generalizing cs s with
  | done a =>
    simp only [Program.exec, Option.some.injEq, Prod.mk.injEq] at he
    exact he.2 ▸ .finish h
  | action f k ih =>
    cases cs with
    | nil => simp [Program.exec] at he
    | cons c cs =>
      simp only [Program.exec] at he
      split at he
      · contradiction
      · rename_i b s₁ hf
        exact ih b (.step c h hf) he

/-- A whole operation executed on concrete choices is part of a run. -/
theorem reachable_exec {o : Op} {cs : List χ} {s s' : σ} {u : Unit}
    (h : Reachable program init ok s none) (hok : ok s o)
    (he : (program o).exec cs s = some (u, s')) : Reachable program init ok s' none :=
  reachable_exec_aux (.start o h hok) he

/-- Execute operations one after another, each on its own choices and only
where `allowed` lets it start. -/
def execAll (program : Op → Program σ χ Unit) (allowed : σ → Op → Bool) :
    List (Op × List χ) → σ → Option σ
  | [], s => some s
  | (o, cs) :: rest, s =>
    if allowed s o then
      match (program o).exec cs s with
      | none => none
      | some (_, s') => execAll program allowed rest s'
    else none

theorem reachable_execAll {allowed : σ → Op → Bool} {ops : List (Op × List χ)} {s s' : σ}
    (hok : ∀ s o, allowed s o = true → ok s o) (h : Reachable program init ok s none)
    (he : execAll program allowed ops s = some s') : Reachable program init ok s' none := by
  induction ops generalizing s with
  | nil =>
    simp only [execAll, Option.some.injEq] at he
    exact he ▸ h
  | cons op rest ih =>
    obtain ⟨o, cs⟩ := op
    simp only [execAll] at he
    split at he
    · rename_i hallowed
      split at he
      · contradiction
      · rename_i u s₁ hx
        exact ih (reachable_exec h (hok s o hallowed) hx) he
    · contradiction

/-- A run that executes to a state with a decidable property reaches it. -/
theorem exists_reachable_of_execAll (allowed : σ → Op → Bool) (ops : List (Op × List χ)) {s : σ}
    {P : σ → Bool} (hok : ∀ s o, allowed s o = true → ok s o)
    (h : Reachable program init ok s none) (he : (execAll program allowed ops s).any P = true) :
    ∃ s', Reachable program init ok s' none ∧ P s' = true := by
  obtain ⟨s', hs', hP⟩ := (Option.any_eq_true P _).mp he
  exact ⟨s', reachable_execAll hok h hs', hP⟩

end Serial

namespace Watched

variable {Op : Type} (program : Op → Program σ χ Unit) (init : σ → Prop) (ok : σ → Op → Prop)
  (R : σ → σ → Prop)

/-- The states of a serial run that others move within `R` at any time, with
the operation in progress and, the last one first, the operations that crashed
and the states they left. -/
inductive Reachable : σ → Option (Op × Program σ χ Unit) → List (Op × σ) → Prop
  | init {s : σ} (h : init s) : Reachable s none []
  | start {s : σ} {log : List (Op × σ)} (o : Op) (h : Reachable s none log) (hok : ok s o) :
      Reachable s (some (o, program o)) log
  | step {s s' : σ} {log : List (Op × σ)} {o : Op} {β : Type} {f : σ → χ → Option (β × σ)}
      {k : β → Program σ χ Unit} {b : β} (c : χ) (h : Reachable s (some (o, .action f k)) log)
      (hf : f s c = some (b, s')) : Reachable s' (some (o, k b)) log
  | others {s s' : σ} {p : Option (Op × Program σ χ Unit)} {log : List (Op × σ)}
      (h : Reachable s p log) (hr : R s s') : Reachable s' p log
  | finish {s : σ} {log : List (Op × σ)} {o : Op} (h : Reachable s (some (o, .done ())) log) :
      Reachable s none log
  | crash {s : σ} {log : List (Op × σ)} {o : Op} {p : Program σ χ Unit}
      (h : Reachable s (some (o, p)) log) : Reachable s none ((o, s) :: log)

variable {program init ok R}

/-- `I` holds between operations and `K` during one, where others keep both, a
crash leads from `K` back to `I`, and each operation keeps `K` at its actions
and ends in `I`. -/
theorem invariant {I : List (Op × σ) → σ → Prop} {K : List (Op × σ) → Op → σ → Prop}
    (hrefl : ∀ s, R s s) (htrans : ∀ a b c, R a b → R b c → R a c)
    (hinit : ∀ s, init s → I [] s) (hI : ∀ log s s', I log s → R s s' → I log s')
    (hK : ∀ log o s s', K log o s → R s s' → K log o s')
    (hstart : ∀ log o s, I log s → ok s o → K log o s)
    (hcrash : ∀ log o s, K log o s → I ((o, s) :: log) s)
    (hop : ∀ log o s, I log s → ok s o →
      wp R (fun _ s' => K log o s') (program o) (fun _ s' => I log s') s)
    {s : σ} {p : Option (Op × Program σ χ Unit)} {log : List (Op × σ)}
    (h : Reachable program init ok R s p log) :
    (p = none → I log s) ∧ ∀ o q, p = some (o, q) → K log o s ∧
      wp R (fun _ s' => K log o s') q (fun _ s' => I log s') s := by
  induction h with
  | init h => exact ⟨fun _ => hinit _ h, nofun⟩
  | start o _ hok ih =>
    refine ⟨nofun, ?_⟩
    rintro _ q ⟨⟩
    exact ⟨hstart _ o _ (ih.1 rfl) hok, hop _ o _ (ih.1 rfl) hok⟩
  | step c _ hf ih =>
    refine ⟨nofun, ?_⟩
    rintro _ q ⟨⟩
    exact (ih.2 _ _ rfl).2 _ (hrefl _) c _ _ hf
  | others _ hr ih =>
    refine ⟨fun hnone => hI _ _ _ (ih.1 hnone) hr, fun o q hq => ?_⟩
    obtain ⟨hk, hw⟩ := ih.2 o q hq
    exact ⟨hK _ o _ _ hk hr, wp_env htrans (fun _ s s' => hI _ s s') hw hr⟩
  | finish _ ih => exact ⟨fun _ => (ih.2 _ _ rfl).2, nofun⟩
  | crash _ ih => exact ⟨fun _ => hcrash _ _ _ (ih.2 _ _ rfl).1, nofun⟩

/-- An operation that advances on concrete choices is part of a run. -/
theorem reachable_advance {o : Op} {p p' : Program σ χ Unit} {cs : List χ} {s s' : σ}
    {log : List (Op × σ)} (h : Reachable program init ok R s (some (o, p)) log)
    (he : p.advance cs s = some (p', s')) : Reachable program init ok R s' (some (o, p')) log := by
  induction p generalizing cs s with
  | done a =>
    cases cs with
    | nil =>
      cases he
      exact h
    | cons c cs => cases he
  | action f k ih =>
    cases cs with
    | nil =>
      cases he
      exact h
    | cons c cs =>
      simp only [Program.advance] at he
      split at he
      · contradiction
      · rename_i b s₁ hf
        exact ih b (.step c h hf) he

end Watched

namespace Pool

variable {Op : Type} (program : ℕ → Op → Program σ χ Unit) (init : σ → Prop)
  (ok : σ → Op → Prop) (release : ℕ → σ → σ)

/-- The states of an interleaved run, with the programs in progress by slot. A
crashed slot keeps nothing: `release` gives back the keys it held. -/
inductive Reachable : σ → (ℕ → Option (Program σ χ Unit)) → Prop
  | init {s : σ} (h : init s) : Reachable s (fun _ => none)
  | start {s : σ} {ts : ℕ → Option (Program σ χ Unit)} (i : ℕ) (o : Op) (h : Reachable s ts)
      (hfree : ts i = none) (hok : ok s o) :
      Reachable s (Function.update ts i (some (program i o)))
  | step {s s' : σ} {ts : ℕ → Option (Program σ χ Unit)} {β : Type}
      {f : σ → χ → Option (β × σ)} {k : β → Program σ χ Unit} {b : β} (i : ℕ) (c : χ)
      (h : Reachable s ts) (ht : ts i = some (.action f k)) (hf : f s c = some (b, s')) :
      Reachable s' (Function.update ts i (some (k b)))
  | finish {s : σ} {ts : ℕ → Option (Program σ χ Unit)} (i : ℕ) (h : Reachable s ts)
      (ht : ts i = some (.done ())) : Reachable s (Function.update ts i none)
  | crash {s : σ} {ts : ℕ → Option (Program σ χ Unit)} {p : Program σ χ Unit} (i : ℕ)
      (h : Reachable s ts) (ht : ts i = some p) :
      Reachable (release i s) (Function.update ts i none)

variable {program init ok release}

/-- Rely and guarantee: if every operation satisfies its guarantee under its
rely, and every slot's guarantee and crash are within every other slot's rely,
then `I` holds in every reachable state and each pending program is still
correct. -/
theorem invariant {I : σ → Prop} {R G : ℕ → σ → σ → Prop}
    (hinit : ∀ s, init s → I s)
    (htrans : ∀ i a b c, R i a b → R i b c → R i a c)
    (hI : ∀ i s s', I s → G i s s' → I s')
    (hcrash : ∀ i s, I s → I (release i s))
    (hGR : ∀ i j s s', i ≠ j → I s → G j s s' → R i s s')
    (hCR : ∀ i j s, i ≠ j → I s → R i s (release j s))
    (hrefl : ∀ i s, R i s s)
    (hop : ∀ i s o, I s → ok s o → wp (R i) (G i) (program i o) (fun _ _ => True) s)
    {s : σ} {ts : ℕ → Option (Program σ χ Unit)} (h : Reachable program init ok release s ts) :
    I s ∧ ∀ i p, ts i = some p → wp (R i) (G i) p (fun _ _ => True) s := by
  induction h with
  | init h => exact ⟨hinit _ h, by simp⟩
  | start i o _ _ hok ih =>
    refine ⟨ih.1, ?_⟩
    intro j p hp
    by_cases hij : j = i
    · subst hij
      rw [Function.update_self, Option.some.injEq] at hp
      exact hp ▸ hop _ _ o ih.1 hok
    · rw [Function.update_of_ne hij] at hp
      exact ih.2 j p hp
  | step i c _ ht hf ih =>
    have hw := ih.2 i _ ht _ (hrefl i _) c _ _ hf
    refine ⟨hI i _ _ ih.1 hw.1, ?_⟩
    intro j p hp
    by_cases hij : j = i
    · subst hij
      rw [Function.update_self, Option.some.injEq] at hp
      exact hp ▸ hw.2
    · rw [Function.update_of_ne hij] at hp
      exact wp_env (htrans j) (fun _ _ _ _ _ => trivial) (ih.2 j p hp) (hGR j i _ _ hij ih.1 hw.1)
  | finish i _ ht ih =>
    refine ⟨ih.1, ?_⟩
    intro j p hp
    by_cases hij : j = i
    · subst hij
      simp at hp
    · rw [Function.update_of_ne hij] at hp
      exact ih.2 j p hp
  | crash i _ ht ih =>
    refine ⟨hcrash i _ ih.1, ?_⟩
    intro j p hp
    by_cases hij : j = i
    · subst hij
      simp at hp
    · rw [Function.update_of_ne hij] at hp
      exact wp_env (htrans j) (fun _ _ _ _ _ => trivial) (ih.2 j p hp) (hCR j i _ hij ih.1)

/-- One scheduled event of a concrete interleaved run. -/
inductive Event (Op χ : Type)
  | start (i : ℕ) (o : Op)
  | step (i : ℕ) (c : χ)
  | finish (i : ℕ)
  | crash (i : ℕ)

/-- Execute a schedule. A blocked action or an occupied slot refuses it. -/
def exec (program : ℕ → Op → Program σ χ Unit) (release : ℕ → σ → σ) :
    List (Event Op χ) → σ → (ℕ → Option (Program σ χ Unit)) →
      Option (σ × (ℕ → Option (Program σ χ Unit)))
  | [], s, ts => some (s, ts)
  | .start i o :: es, s, ts =>
    match ts i with
    | none => exec program release es s (Function.update ts i (some (program i o)))
    | some _ => none
  | .step i c :: es, s, ts =>
    match ts i with
    | some (.action f k) =>
      match f s c with
      | some (b, s') => exec program release es s' (Function.update ts i (some (k b)))
      | none => none
    | _ => none
  | .finish i :: es, s, ts =>
    match ts i with
    | some (.done ()) => exec program release es s (Function.update ts i none)
    | _ => none
  | .crash i :: es, s, ts =>
    match ts i with
    | some _ => exec program release es (release i s) (Function.update ts i none)
    | none => none

theorem reachable_exec {es : List (Event Op χ)} {s s' : σ}
    {ts ts' : ℕ → Option (Program σ χ Unit)} (hok : ∀ s o, ok s o)
    (h : Reachable program init ok release s ts)
    (he : exec program release es s ts = some (s', ts')) :
    Reachable program init ok release s' ts' := by
  induction es generalizing s ts with
  | nil =>
    simp only [exec, Option.some.injEq, Prod.mk.injEq] at he
    exact he.1 ▸ he.2 ▸ h
  | cons e es ih =>
    cases e with
    | start i o =>
      simp only [exec] at he
      split at he
      · rename_i hfree
        exact ih (.start i o h hfree (hok s o)) he
      · contradiction
    | step i c =>
      simp only [exec] at he
      split at he
      · rename_i β f k ht
        split at he
        · rename_i b s₁ hf
          exact ih (.step i c h ht hf) he
        · contradiction
      · contradiction
    | finish i =>
      simp only [exec] at he
      split at he
      · rename_i ht
        exact ih (.finish i h ht) he
      · contradiction
    | crash i =>
      simp only [exec] at he
      split at he
      · rename_i p ht
        exact ih (.crash i h ht) he
      · contradiction

end Pool

end FerrumNexus.Saga
