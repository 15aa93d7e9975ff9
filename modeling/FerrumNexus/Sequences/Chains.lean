import Mathlib.Data.Finset.Card
import Mathlib.Data.List.Nodup
import Mathlib.Tactic

/-!
# Chains of keys, followed with a memo

A step from a key ends its chain or leads over a link to the next key. The value
of a key is what a plain walk finds: the end of its chain, with every link put on
from the last to the first, or, where the chain runs into itself, the value of a
loop at the first key met again. A memo of values may stand in for the rest of a
chain, whatever was walked before, because it holds with every key the rest of
that key's chain. Only finitely many keys are needed for a walk to come to an
end.
-/
namespace FerrumNexus.Sequences.Chains

variable {κ α β : Type} [DecidableEq κ] (step : κ → α ⊕ (β × κ)) (loop : κ → α)
  (link : β → α → α)

/-! ## Plain walks -/

/-- Walk from a key, with the keys already met. -/
def chase : ℕ → List κ → κ → Option α
  | 0, _, _ => none
  | n + 1, seen, k =>
    if k ∈ seen then some (loop k)
    else match step k with
      | .inl a => some a
      | .inr (b, k') => (chase n (k :: seen) k').map (link b)

/-- What a plain walk finds. -/
def Value (k : κ) (a : α) : Prop := ∃ n, chase step loop link n [] k = some a

/-! ## Walks with a memo -/

/-- The keys of a chain, latest first, from `k` on, and the links before it. -/
def ring (k : κ) : List (κ × β) → List κ × List (κ × β)
  | [] => ([], [])
  | (x, _) :: chain =>
    if x = k then ([x], chain) else (x :: (ring k chain).1, (ring k chain).2)

/-- Every key of a loop gets the value of a loop at itself. -/
def markLoop (memo : κ → Option α) (keys : List κ) : κ → Option α := fun k =>
  if k ∈ keys then some (loop k) else memo k

/-- Follow a chain until something is known of the rest of it. -/
def descend : ℕ → (κ → Option α) → List (κ × β) → κ →
    Option ((κ → Option α) × List (κ × β) × α)
  | 0, _, _, _ => none
  | n + 1, memo, chain, k =>
    match memo k with
    | some a => some (memo, chain, a)
    | none =>
      if k ∈ chain.map Prod.fst then
        some (markLoop loop memo (ring k chain).1, (ring k chain).2, loop k)
      else match step k with
        | .inl a => some (Function.update memo k (some a), chain, a)
        | .inr (b, k') => descend n memo ((k, b) :: chain) k'

/-- Put the links on, the latest first, and remember every value. -/
def ascend (memo : κ → Option α) : List (κ × β) → α → (κ → Option α)
  | [], _ => memo
  | (k, b) :: chain, a => ascend (Function.update memo k (some (link b a))) chain (link b a)

/-- The memo after a walk from a key. -/
def follow (n : ℕ) (memo : κ → Option α) (k : κ) : Option (κ → Option α) :=
  (descend step loop n memo [] k).map fun result => ascend link result.1 result.2.1 result.2.2

variable {step loop link}

/-! ## Values -/

variable {a : α} {k k' start x : κ} {n : ℕ} {keys seen : List κ} {memo : κ → Option α}
  {chain : List (κ × β)}

theorem chase_succ (h : chase step loop link n seen k = some a) :
    chase step loop link (n + 1) seen k = some a := by
  induction n generalizing seen k a with
  | zero => cases h
  | succ n ih =>
    rw [chase] at h ⊢
    split
    · rename_i hmem
      rwa [if_pos hmem] at h
    · rename_i hmem
      rw [if_neg hmem] at h
      split at h
      · rename_i hstep
        simpa only [hstep] using h
      · rename_i b k' hstep
        obtain ⟨a', ha', rfl⟩ := Option.map_eq_some_iff.mp h
        simp only [ih ha', Option.map_some]

theorem chase_le {m : ℕ} (hle : n ≤ m) (h : chase step loop link n seen k = some a) :
    chase step loop link m seen k = some a := by
  induction hle with
  | refl => exact h
  | step _ ih => exact chase_succ ih

/-- A plain walk finds one value. -/
theorem Value.unique {a' : α} (h : Value step loop link k a) (h' : Value step loop link k a') :
    a = a' := by
  obtain ⟨n, hn⟩ := h
  obtain ⟨m, hm⟩ := h'
  have hn := chase_le (le_max_left n m) hn
  have hm := chase_le (le_max_right n m) hm
  exact Option.some.inj (hn.symm.trans hm)

theorem value_end (h : step k = .inl a) : Value step loop link k a :=
  ⟨1, by simp [chase, h]⟩

variable (step) in
/-- A set of keys that holds with every key the rest of its chain. -/
def Closed (P : κ → Prop) : Prop :=
  ∀ k b k', P k → step k = .inr (b, k') → P k'

/-- What a chain does not meet does not matter to it. -/
theorem chase_append {P : κ → Prop} (hP : Closed step P) {extra : List κ}
    (hextra : ∀ x ∈ extra, ¬ P x) (n : ℕ) (seen : List κ) (hk : P k) :
    chase step loop link n (seen ++ extra) k = chase step loop link n seen k := by
  induction n generalizing seen k with
  | zero => rfl
  | succ n ih =>
    have hmem : k ∈ seen ++ extra ↔ k ∈ seen := by
      rw [List.mem_append]
      exact or_iff_left fun hx => hextra k hx hk
    simp only [chase, hmem]
    split
    · rfl
    · split
      · rfl
      · rename_i b k' hstep
        rw [← List.cons_append, ih (k :: seen) (hP k b k' hk hstep)]

/-- A key that the rest of its chain does not meet again. -/
theorem Value.over {P : κ → Prop} (hP : Closed step P) {b : β} (hk : ¬ P k) (hk' : P k')
    (hstep : step k = .inr (b, k')) (h : Value step loop link k' a) :
    Value step loop link k (link b a) := by
  obtain ⟨n, hn⟩ := h
  refine ⟨n + 1, ?_⟩
  have hrest : chase step loop link n [k] k' = some a := by
    have happend : chase step loop link n ([] ++ [k]) k' = chase step loop link n [] k' :=
      chase_append hP (fun x hx => by rw [List.mem_singleton.mp hx]; exact hk) n [] hk'
    rw [List.nil_append] at happend
    exact happend.trans hn
  simp [chase, hstep, hrest]

/-! ## Loops -/

section Trails

omit [DecidableEq κ]

variable (step) in
/-- The keys a walk meets on its way from one key to another. -/
inductive Trail : κ → List κ → κ → Prop
  | nil (k : κ) : Trail k [] k
  | cons {k k' k'' : κ} {b : β} {keys : List κ} (h : step k = .inr (b, k'))
      (ht : Trail k' keys k'') : Trail k (k :: keys) k''

variable {k k' k'' x : κ}

theorem Trail.append {keys keys' : List κ} (h : Trail step k keys k')
    (h' : Trail step k' keys' k'') : Trail step k (keys ++ keys') k'' := by
  induction h with
  | nil => exact h'
  | cons hstep _ ih => exact .cons hstep (ih h')

theorem Trail.concat {b : β} {keys : List κ} (h : Trail step k keys k')
    (hstep : step k' = .inr (b, k'')) : Trail step k (keys ++ [k']) k'' :=
  h.append (.cons hstep (.nil k''))

theorem Trail.next_mem {keys : List κ} (h : Trail step k keys k'') {x' : κ} {b : β} (hx : x ∈ keys)
    (hstep : step x = .inr (b, x')) : x' ∈ keys ∨ x' = k'' := by
  induction h with
  | nil => cases hx
  | @cons k k₁ k'' b₁ keys hk ht ih =>
    rcases List.mem_cons.mp hx with rfl | hx
    · rw [hk] at hstep
      cases hstep
      cases ht with
      | nil => exact .inr rfl
      | cons => exact .inl (by simp)
    · exact (ih hx).imp_left (List.mem_cons_of_mem _)

/-- A trail may be left and entered at any of its keys. -/
theorem Trail.split {keys : List κ} (h : Trail step k keys k'') (hx : x ∈ keys) :
    ∃ before rest, keys = before ++ rest ∧ Trail step k before x ∧ Trail step x rest k'' ∧
      rest ≠ [] := by
  induction h with
  | nil => cases hx
  | @cons k k₁ k'' b keys hk ht ih =>
    by_cases hxk : x = k
    · subst hxk
      exact ⟨[], x :: keys, rfl, .nil x, .cons hk ht, List.cons_ne_nil _ _⟩
    · have hx : x ∈ keys := by
        rcases List.mem_cons.mp hx with rfl | hx
        · exact absurd rfl hxk
        · exact hx
      obtain ⟨before, rest, hkeys, hbefore, hrest, hne⟩ := ih hx
      exact ⟨k :: before, rest, by rw [hkeys, List.cons_append], .cons hk hbefore, hrest, hne⟩

end Trails

/-- A walk along a trail that ends in a loop. -/
theorem chase_trail (hlink : ∀ b k, link b (loop k) = loop k) (h : Trail step k keys k')
    (hnew : ∀ y ∈ keys, y ∉ seen) (hnodup : keys.Nodup)
    (hend : chase step loop link n (keys.reverse ++ seen) k' = some (loop x)) :
    chase step loop link (n + keys.length) seen k = some (loop x) := by
  induction h generalizing seen with
  | nil => exact hend
  | @cons k k₁ k'' b keys hstep _ ih =>
    obtain ⟨hk, hnodup⟩ := List.nodup_cons.mp hnodup
    have hrest : chase step loop link (n + keys.length) (k :: seen) k₁ = some (loop x) := by
      refine ih ?_ hnodup ?_
      · intro y hy hmem
        rcases List.mem_cons.mp hmem with rfl | hmem
        · exact hk hy
        · exact hnew y (List.mem_cons_of_mem _ hy) hmem
      · simpa only [List.reverse_cons, List.append_assoc, List.singleton_append] using hend
    rw [List.length_cons, ← Nat.add_assoc, chase, if_neg (hnew k List.mem_cons_self), hstep]
    simp only [hrest, Option.map_some, hlink]

theorem value_loop (hlink : ∀ b k, link b (loop k) = loop k) (h : Trail step k keys k)
    (hnodup : keys.Nodup) (hne : keys ≠ []) :
    Value step loop link k (loop k) := by
  have hmem : k ∈ keys.reverse ++ [] := by
    cases h with
    | nil => exact absurd rfl hne
    | cons => simp
  refine ⟨1 + keys.length, chase_trail hlink h (by simp) hnodup ?_⟩
  rw [chase, if_pos hmem]

/-! ## The memo -/

variable (step loop link) in
/-- Each key of the memo has its value, and the next key has one too. -/
structure Sound (memo : κ → Option α) : Prop where
  value : ∀ k a, memo k = some a → Value step loop link k a
  closed : Closed step fun k => memo k ≠ none

theorem sound_empty : Sound step loop link fun _ => none where
  value _ _ h := by cases h
  closed _ _ _ h _ := absurd rfl h

theorem Sound.update_end (h : Sound step loop link memo) (hstep : step k = .inl a) :
    Sound step loop link (Function.update memo k (some a)) := by
  constructor
  · intro x a' hx
    by_cases hxk : x = k
    · subst hxk
      rw [Function.update_self, Option.some.injEq] at hx
      exact hx ▸ value_end hstep
    · rw [Function.update_of_ne hxk] at hx
      exact h.value x a' hx
  · intro x b x' hx hx'
    have hxk : x ≠ k := by
      rintro rfl
      rw [hstep] at hx'
      cases hx'
    rw [Function.update_of_ne hxk] at hx
    by_cases hxk' : x' = k
    · rw [hxk', Function.update_self]
      exact Option.some_ne_none _
    · rw [Function.update_of_ne hxk']
      exact h.closed x b x' hx hx'

/-- The key before one of the memo. -/
theorem Sound.update_link (h : Sound step loop link memo) {b : β} (hk : memo k = none)
    (hstep : step k = .inr (b, k')) (hk' : memo k' = some a) :
    Sound step loop link (Function.update memo k (some (link b a))) := by
  have hmem : memo k' ≠ none := by
    rw [hk']
    exact Option.some_ne_none a
  constructor
  · intro x a' hx
    by_cases hxk : x = k
    · subst hxk
      rw [Function.update_self, Option.some.injEq] at hx
      exact hx ▸ (h.value k' a hk').over h.closed (not_not_intro hk) hmem hstep
    · rw [Function.update_of_ne hxk] at hx
      exact h.value x a' hx
  · intro x b' x' hx hx'
    by_cases hxk' : x' = k
    · rw [hxk', Function.update_self]
      exact Option.some_ne_none _
    rw [Function.update_of_ne hxk']
    by_cases hxk : x = k
    · rw [hxk, hstep] at hx'
      cases hx'
      exact hmem
    · rw [Function.update_of_ne hxk] at hx
      exact h.closed x b' x' hx hx'

theorem Sound.markLoop (h : Sound step loop link memo)
    (hvalue : ∀ k ∈ keys, Value step loop link k (loop k))
    (hnext : ∀ k ∈ keys, ∀ b k', step k = .inr (b, k') → k' ∈ keys) :
    Sound step loop link (markLoop loop memo keys) := by
  constructor
  · intro x a hx
    rw [Chains.markLoop] at hx
    split at hx
    · rename_i hmem
      cases hx
      exact hvalue x hmem
    · exact h.value x a hx
  · intro x b x' hx hstep
    simp only [Chains.markLoop] at hx ⊢
    by_cases hmem' : x' ∈ keys
    · rw [if_pos hmem']
      exact Option.some_ne_none _
    rw [if_neg hmem']
    by_cases hmem : x ∈ keys
    · exact absurd (hnext x hmem b x' hstep) hmem'
    · rw [if_neg hmem] at hx
      exact h.closed x b x' hx hstep

/-! ## Walks keep the memo sound -/

variable (step) in
/-- The links of a chain from `start`, latest first, that has come to `k`. -/
inductive Path (start : κ) : List (κ × β) → κ → Prop
  | nil : Path start [] start
  | cons {k k' : κ} {b : β} {chain : List (κ × β)} (h : step k = .inr (b, k'))
      (hp : Path start chain k) : Path start ((k, b) :: chain) k'

/-- The part of a chain from `k` on, and what came before it. -/
theorem Path.ring (h : Path step start chain k') (hmem : k ∈ chain.map Prod.fst) :
    Trail step k (ring k chain).1.reverse k' ∧ Path step start (ring k chain).2 k ∧
      (ring k chain).1 ++ (ring k chain).2.map Prod.fst = chain.map Prod.fst ∧
      k ∈ (ring k chain).1 := by
  induction h with
  | nil => cases hmem
  | @cons x x' b chain hstep hp ih =>
    by_cases hx : x = k
    · subst hx
      simp only [Chains.ring, if_true]
      exact ⟨.cons hstep (.nil x'), hp, rfl, List.mem_cons_self⟩
    · have hmem : k ∈ chain.map Prod.fst := by
        rcases List.mem_cons.mp hmem with rfl | hmem
        · exact absurd rfl hx
        · exact hmem
      obtain ⟨htrail, hpath, hkeys, hk⟩ := ih hmem
      simp only [Chains.ring, if_neg hx, List.reverse_cons, List.cons_append, List.map_cons, hkeys]
      exact ⟨htrail.concat hstep, hpath, trivial, List.mem_cons_of_mem _ hk⟩

/-- Every key of a loop has the value of a loop at itself. -/
theorem value_of_loop (hlink : ∀ b k, link b (loop k) = loop k) (h : Trail step k keys k)
    (hnodup : keys.Nodup) (hx : x ∈ keys) :
    Value step loop link x (loop x) := by
  obtain ⟨before, rest, rfl, hbefore, hrest, hne⟩ := h.split hx
  refine value_loop hlink (hrest.append hbefore) ?_ (by simp [hne])
  exact (List.perm_append_comm.nodup_iff).mp hnodup

variable (step loop link) in
/-- A chain that has come to a key with a value: what is left of a walk. -/
structure Reached (start : κ) (memo : κ → Option α) (chain : List (κ × β)) (a : α) : Prop where
  sound : Sound step loop link memo
  path : ∃ k, Path step start chain k ∧ memo k = some a
  nodup : (chain.map Prod.fst).Nodup
  fresh : ∀ x ∈ chain.map Prod.fst, memo x = none

theorem descend_reached (hlink : ∀ b k, link b (loop k) = loop k) {memo' : κ → Option α}
    {chain' : List (κ × β)} (h : Sound step loop link memo) (hpath : Path step start chain k)
    (hnodup : (chain.map Prod.fst).Nodup) (hfresh : ∀ x ∈ chain.map Prod.fst, memo x = none)
    (hd : descend step loop n memo chain k = some (memo', chain', a)) :
    Reached step loop link start memo' chain' a := by
  induction n generalizing chain k with
  | zero => cases hd
  | succ n ih =>
    rw [descend] at hd
    split at hd
    · rename_i a' hmemo
      cases hd
      exact ⟨h, ⟨k, hpath, hmemo⟩, hnodup, hfresh⟩
    rename_i hnone
    split at hd
    · rename_i hmem
      cases hd
      obtain ⟨htrail, hrest, hkeys, hk⟩ := hpath.ring hmem
      rw [← hkeys] at hnodup hfresh
      obtain ⟨hring, hrestNodup, hdisjoint⟩ := List.nodup_append.mp hnodup
      have hvalue : ∀ x ∈ (ring k chain).1, Value step loop link x (loop x) := fun x hx =>
        value_of_loop hlink htrail (List.nodup_reverse.mpr hring) (List.mem_reverse.mpr hx)
      have hnext : ∀ x ∈ (ring k chain).1, ∀ b x', step x = .inr (b, x') →
          x' ∈ (ring k chain).1 := by
        intro x hx b x' hstep
        rcases htrail.next_mem (List.mem_reverse.mpr hx) hstep with hx' | rfl
        · exact List.mem_reverse.mp hx'
        · exact hk
      refine ⟨h.markLoop hvalue hnext, ⟨k, hrest, if_pos hk⟩, hrestNodup, ?_⟩
      intro x hx
      rw [markLoop, if_neg fun hx' => hdisjoint x hx' x hx rfl]
      exact hfresh x (List.mem_append_right _ hx)
    · rename_i hmem
      split at hd
      · rename_i a' hstep
        cases hd
        refine ⟨h.update_end hstep, ⟨k, hpath, Function.update_self ..⟩, hnodup, ?_⟩
        intro x hx
        have hxk : x ≠ k := by
          rintro rfl
          exact hmem hx
        rw [Function.update_of_ne hxk]
        exact hfresh x hx
      · rename_i b k' hstep
        refine ih (.cons hstep hpath) ?_ ?_ hd
        · exact List.nodup_cons.mpr ⟨hmem, hnodup⟩
        · intro x hx
          rcases List.mem_cons.mp hx with rfl | hx
          · exact hnone
          · exact hfresh x hx

/-- Once the links are on, the first key is in the memo. -/
theorem Reached.ascend (h : Reached step loop link start memo chain a) :
    Sound step loop link (ascend link memo chain a) ∧ ascend link memo chain a start ≠ none := by
  induction chain generalizing memo a with
  | nil =>
    obtain ⟨k, hpath, hk⟩ := h.path
    cases hpath
    exact ⟨h.sound, by rw [Chains.ascend, hk]; exact Option.some_ne_none a⟩
  | cons entry chain ih =>
    obtain ⟨k', hpath, hk'⟩ := h.path
    obtain ⟨hhead, hnodup⟩ := List.nodup_cons.mp h.nodup
    cases hpath with
    | @cons k _ b _ hstep hpath =>
      have hk : memo k = none := h.fresh k List.mem_cons_self
      refine ih ⟨h.sound.update_link hk hstep hk', ⟨k, hpath, Function.update_self ..⟩, hnodup, ?_⟩
      intro x hx
      have hxk : x ≠ k := by
        rintro rfl
        exact hhead hx
      rw [Function.update_of_ne hxk]
      exact h.fresh x (List.mem_cons_of_mem _ hx)

/-! ## Every walk ends -/

/-- A walk that repeats no key meets its first and the keys that are led to. -/
theorem length_le_of_walked {keys : Finset κ} {walked : List κ} (hnodup : walked.Nodup)
    (hwalked : ∀ x ∈ walked, x ∈ insert start keys) : walked.length ≤ keys.card + 1 := by
  rw [← List.toFinset_card_of_nodup hnodup]
  refine (Finset.card_le_card fun x hx => ?_).trans (Finset.card_insert_le start keys)
  exact hwalked x (List.mem_toFinset.mp hx)

theorem descend_some {keys : Finset κ} (hkeys : ∀ k b k', step k = .inr (b, k') → k' ∈ keys)
    (hpath : Path step start chain k) (hnodup : (chain.map Prod.fst).Nodup)
    (hchain : ∀ x ∈ k :: chain.map Prod.fst, x ∈ insert start keys)
    (hn : keys.card + 2 ≤ n + chain.length) : descend step loop n memo chain k ≠ none := by
  induction n generalizing chain k with
  | zero =>
    have hcard := length_le_of_walked hnodup (List.forall_mem_cons.mp hchain).2
    rw [List.length_map] at hcard
    omega
  | succ n ih =>
    rw [descend]
    split
    · exact Option.some_ne_none _
    split
    · exact Option.some_ne_none _
    rename_i hmem
    split
    · exact Option.some_ne_none _
    · rename_i b k' hstep
      have hk' : k' ∈ insert start keys := Finset.mem_insert_of_mem (hkeys k b k' hstep)
      refine ih (.cons hstep hpath) (List.nodup_cons.mpr ⟨hmem, hnodup⟩)
        (List.forall_mem_cons.mpr ⟨hk', hchain⟩) ?_
      rw [List.length_cons]
      omega

theorem chase_some {keys : Finset κ} (hkeys : ∀ k b k', step k = .inr (b, k') → k' ∈ keys)
    (hnodup : seen.Nodup) (hseen : ∀ x ∈ k :: seen, x ∈ insert start keys)
    (hn : keys.card + 2 ≤ n + seen.length) :
    chase step loop link n seen k ≠ none := by
  induction n generalizing seen k with
  | zero =>
    have hcard := length_le_of_walked hnodup (List.forall_mem_cons.mp hseen).2
    omega
  | succ n ih =>
    rw [chase]
    split
    · exact Option.some_ne_none _
    rename_i hmem
    split
    · exact Option.some_ne_none _
    · rename_i b k' hstep
      rw [ne_eq, Option.map_eq_none_iff]
      have hk' : k' ∈ insert start keys := Finset.mem_insert_of_mem (hkeys k b k' hstep)
      refine ih (List.nodup_cons.mpr ⟨hmem, hnodup⟩) (List.forall_mem_cons.mpr ⟨hk', hseen⟩) ?_
      rw [List.length_cons]
      omega

/-- The plain walk ends as well, and so finds what there is to find. -/
theorem chase_value {keys : Finset κ} (hkeys : ∀ k b k', step k = .inr (b, k') → k' ∈ keys)
    (hn : keys.card + 2 ≤ n) (h : Value step loop link k a) :
    chase step loop link n [] k = some a := by
  have hsome : chase step loop link n [] k ≠ none :=
    chase_some hkeys (List.nodup_nil) (fun x hx => by
      rw [List.mem_singleton.mp hx]
      exact Finset.mem_insert_self k keys) (by simpa using hn)
  obtain ⟨a', ha'⟩ := Option.ne_none_iff_exists'.mp hsome
  rw [ha', h.unique ⟨n, ha'⟩]

/-- The walk with a memo ends, and leaves the memo sound and the value of its
first key in it. -/
theorem follow_value (hlink : ∀ b k, link b (loop k) = loop k) {keys : Finset κ}
    (hkeys : ∀ k b k', step k = .inr (b, k') → k' ∈ keys) (hn : keys.card + 2 ≤ n)
    (h : Sound step loop link memo) (k : κ) :
    ∃ memo' a, follow step loop link n memo k = some memo' ∧ Sound step loop link memo' ∧
      memo' k = some a ∧ Value step loop link k a := by
  have hsome : descend step loop n memo [] k ≠ none := by
    refine descend_some hkeys .nil List.nodup_nil ?_ (by simpa using hn)
    simp
  obtain ⟨⟨memo₁, chain, a₁⟩, hd⟩ := Option.ne_none_iff_exists'.mp hsome
  have hreached := descend_reached hlink h .nil List.nodup_nil (by simp) hd
  obtain ⟨hsound, hmem⟩ := hreached.ascend
  obtain ⟨a, ha⟩ := Option.ne_none_iff_exists'.mp hmem
  exact ⟨_, a, by rw [follow, hd]; rfl, hsound, ha, hsound.value k a ha⟩

end FerrumNexus.Sequences.Chains
