import FerrumNexus.Database.Gate

/-!
# What the gate keeps apart

The transaction that is open is the one at the head of the queue, and only the
head of the queue runs. From this every statement between a `BEGIN` and its end
is one of the transaction's own, transactions open in the order they were asked
for, and a call that waits, waits behind something that is running.
-/
namespace FerrumNexus.Database

/-! ## Reading the trace -/

/-- The transaction the connection is inside of. -/
def opened : List Event → Option ℕ
  | [] => none
  | .begin t :: _ => some t
  | .commit _ :: _ => none
  | .rollback _ :: _ => none
  | .statement _ _ :: past => opened past
  | .probe _ :: past => opened past

/-- The transactions that have opened, the newest first. -/
def begun : List Event → List ℕ
  | [] => []
  | .begin t :: past => t :: begun past
  | .commit _ :: past => begun past
  | .rollback _ :: past => begun past
  | .statement _ _ :: past => begun past
  | .probe _ :: past => begun past

/-- No transaction opens inside another; a statement inside one has its token,
one of a body stands inside that body's transaction, and one with the token of a
transaction comes after its `BEGIN`. -/
def Isolated : List Event → Prop
  | [] => True
  | .begin _ :: past => Isolated past ∧ opened past = none
  | .commit t :: past => Isolated past ∧ opened past = some t
  | .rollback t :: past => Isolated past ∧ opened past = some t
  | .statement context own :: past => Isolated past ∧
      (∀ t, opened past = some t → context = some t) ∧
      (∀ t, own = some t → opened past = some t) ∧ ∀ t, context = some t → t ∈ begun past
  | .probe _ :: past => Isolated past

theorem mem_begun_of_opened {trace : List Event} {t : ℕ} (h : opened trace = some t) :
    t ∈ begun trace := by
  induction trace with
  | nil => cases h
  | cons e past ih =>
    cases e with
    | begin token =>
      cases h
      exact List.mem_cons_self
    | commit token => cases h
    | rollback token => cases h
    | statement context own => exact ih h
    | probe context => exact ih h

/-! ## The invariant -/

/-- The transaction at the head of the queue, once it has started. -/
def headToken : List Entry → Option ℕ
  | [] => none
  | e :: _ => if e.started then e.token else none

/-- The transactions that wait to open, the oldest first. -/
def waitingTokens (queue : List Entry) : List ℕ :=
  (queue.filter fun e => !e.started).filterMap (·.token)

/-- A thread and its place in the queue. -/
structure Place (e : Entry) (thread : Thread) : Prop where
  parked : thread.parked = !e.started
  call : e.token = none → 0 < e.depth ∧ e.depth ≤ thread.methods
  body : ∀ t, e.token = some t → e.started = true → thread.body = some t

structure Inv (g : Gate) : Prop where
  active : g.activeTx = headToken g.queue
  rest : ∀ e ∈ g.queue.tail, e.started = false
  places : ∀ e ∈ g.queue, ∃ thread, g.threads e.thread = some thread ∧ Place e thread
  nodup : (g.queue.map (·.thread)).Nodup
  parked : ∀ i thread, g.threads i = some thread → thread.parked = true →
    ∃ e ∈ g.queue, e.thread = i ∧ e.started = false
  body : ∀ i thread t, g.threads i = some thread → thread.body = some t →
    ∃ e rest, g.queue = e :: rest ∧ e.thread = i ∧ e.token = some t ∧ e.started = true
  bases : ∀ i thread t, g.threads i = some thread → thread.base = some t → t ∈ begun g.trace
  fresh : ∀ i, g.nextThread ≤ i → g.threads i = none
  opened : opened g.trace = g.activeTx
  isolated : Isolated g.trace
  ordered : ((waitingTokens g.queue).reverse ++ begun g.trace).Pairwise (· > ·)
  tokens : ∀ t ∈ (waitingTokens g.queue).reverse ++ begun g.trace, t < g.nextToken

theorem Inv.init : Inv Gate.init where
  active := rfl
  rest := by simp [Gate.init]
  places := by simp [Gate.init]
  nodup := List.nodup_nil
  parked := by simp [Gate.init]
  body := by simp [Gate.init]
  bases := by simp [Gate.init]
  fresh := fun _ _ => rfl
  opened := rfl
  isolated := trivial
  ordered := List.Pairwise.nil
  tokens := by simp [Gate.init, waitingTokens, begun]

variable {g g' : Gate} {i : ℕ} {thread : Thread}

/-- A body is only ever run inside its own transaction. -/
theorem Inv.active_of_body (h : Inv g) (hi : g.threads i = some thread) {t : ℕ}
    (hbody : thread.body = some t) : g.activeTx = some t := by
  obtain ⟨e, rest, hqueue, -, htoken, hstarted⟩ := h.body i thread t hi hbody
  rw [h.active, hqueue, headToken, if_pos hstarted, htoken]

theorem Inv.context_of_body (h : Inv g) (hi : g.threads i = some thread) {t : ℕ}
    (hbody : thread.body = some t) : g.ownsOpenTransaction thread = true := by
  unfold Gate.ownsOpenTransaction Thread.context
  rw [h.active_of_body hi hbody, hbody]
  simp

theorem Inv.context_begun (h : Inv g) (hi : g.threads i = some thread) {t : ℕ}
    (hcontext : thread.context = some t) : t ∈ begun g.trace := by
  unfold Thread.context at hcontext
  cases hbody : thread.body with
  | none =>
    rw [hbody, Option.none_or] at hcontext
    exact h.bases i thread t hi hcontext
  | some t' =>
    rw [hbody, Option.some_or, Option.some.injEq] at hcontext
    subst hcontext
    exact mem_begun_of_opened (h.opened.trans (h.active_of_body hi hbody))

/-- A thread that waits for nothing and has a place in the queue is running at
its head. -/
theorem Inv.head_of_running (h : Inv g) (hi : g.threads i = some thread)
    (hparked : thread.parked = false) {e : Entry} (he : e ∈ g.queue) (hthread : e.thread = i) :
    ∃ rest, g.queue = e :: rest ∧ e.started = true ∧ Place e thread := by
  obtain ⟨found, hfound, hplace⟩ := h.places e he
  rw [hthread, hi, Option.some.injEq] at hfound
  subst hfound
  have hstarted : e.started = true := by
    have hpark := hplace.parked
    rw [hparked] at hpark
    simpa using hpark.symm
  cases hqueue : g.queue with
  | nil =>
    rw [hqueue] at he
    cases he
  | cons head rest =>
    rw [hqueue] at he
    rcases List.mem_cons.mp he with rfl | hrest
    · exact ⟨rest, rfl, hstarted, hplace⟩
    · have hwaits := h.rest e (by rw [hqueue]; exact hrest)
      rw [hstarted] at hwaits
      cases hwaits

/-! ## Pieces of steps -/

/-- A statement of a thread that may use the connection. -/
theorem Inv.statement (h : Inv g) (hi : g.threads i = some thread)
    (hentitled : ∀ t, g.activeTx = some t → thread.context = some t) :
    Inv (g.log (.statement thread.context thread.body)) where
  active := h.active
  rest := h.rest
  places := h.places
  nodup := h.nodup
  parked := h.parked
  body := h.body
  bases := h.bases
  fresh := h.fresh
  opened := h.opened
  isolated := by
    refine ⟨h.isolated, fun t ht => hentitled t (h.opened ▸ ht), fun t ht => ?_, fun t ht => ?_⟩
    · exact h.opened.trans (h.active_of_body hi ht)
    · exact h.context_begun hi ht
  ordered := h.ordered
  tokens := h.tokens

theorem Inv.probe (h : Inv g) (context : Option ℕ) : Inv (g.log (.probe context)) where
  active := h.active
  rest := h.rest
  places := h.places
  nodup := h.nodup
  parked := h.parked
  body := h.body
  bases := h.bases
  fresh := h.fresh
  opened := h.opened
  isolated := h.isolated
  ordered := h.ordered
  tokens := h.tokens

theorem Inv.launch (h : Inv g) {context : Option ℕ}
    (hcontext : ∀ t, context = some t → t ∈ begun g.trace) : Inv (g.launch context) := by
  have hnew : ∀ i thread, (g.launch context).threads i = some thread →
      (i = g.nextThread ∧ thread = ⟨context, none, 0, false⟩) ∨
        (i ≠ g.nextThread ∧ g.threads i = some thread) := by
    intro i thread hi
    unfold Gate.launch Gate.setThread at hi
    by_cases hid : i = g.nextThread
    · simp only [hid, Function.update_self, Option.some.injEq] at hi
      exact .inl ⟨hid, hi.symm⟩
    · simp only [Function.update_of_ne hid] at hi
      exact .inr ⟨hid, hi⟩
  have hold : ∀ i thread, g.threads i = some thread →
      (g.launch context).threads i = some thread := by
    intro i thread hi
    have hid : i ≠ g.nextThread := by
      intro hid
      rw [hid, h.fresh g.nextThread le_rfl] at hi
      cases hi
    unfold Gate.launch Gate.setThread
    simp only [Function.update_of_ne hid, hi]
  constructor
  · exact h.active
  · exact h.rest
  · intro e he
    obtain ⟨thread, hthread, hplace⟩ := h.places e he
    exact ⟨thread, hold _ _ hthread, hplace⟩
  · exact h.nodup
  · intro i thread hi hparked
    rcases hnew i thread hi with ⟨-, rfl⟩ | ⟨-, hi⟩
    · cases hparked
    · exact h.parked i thread hi hparked
  · intro i thread t hi hbody
    rcases hnew i thread hi with ⟨-, rfl⟩ | ⟨-, hi⟩
    · cases hbody
    · exact h.body i thread t hi hbody
  · intro i thread t hi hbase
    rcases hnew i thread hi with ⟨-, rfl⟩ | ⟨-, hi⟩
    · exact hcontext t hbase
    · exact h.bases i thread t hi hbase
  · intro i hi
    unfold Gate.launch Gate.setThread at hi ⊢
    simp only at hi ⊢
    rw [Function.update_of_ne (by omega)]
    exact h.fresh i (by omega)
  · exact h.opened
  · exact h.isolated
  · exact h.ordered
  · exact h.tokens

/-- A thread that is set replaces its own and no other. -/
theorem threads_setThread {thread found : Thread} {j : ℕ}
    (hj : (g.setThread i thread).threads j = some found) :
    (j = i ∧ found = thread) ∨ (j ≠ i ∧ g.threads j = some found) := by
  unfold Gate.setThread at hj
  by_cases hji : j = i
  · simp only [hji, Function.update_self, Option.some.injEq] at hj
    exact .inl ⟨hji, hj.symm⟩
  · simp only [Function.update_of_ne hji] at hj
    exact .inr ⟨hji, hj⟩

theorem Inv.bases_setThread (h : Inv g) (hi : g.threads i = some thread) {thread' : Thread}
    (hbase : thread'.base = thread.base) :
    ∀ j found t, (g.setThread i thread').threads j = some found → found.base = some t →
      t ∈ begun g.trace := by
  intro j found t hj ht
  rcases threads_setThread hj with ⟨-, rfl⟩ | ⟨-, hj⟩
  · exact h.bases i thread t hi (hbase ▸ ht)
  · exact h.bases j found t hj ht

theorem Inv.fresh_setThread (h : Inv g) (hi : g.threads i = some thread) (thread' : Thread) :
    ∀ j, g.nextThread ≤ j → (g.setThread i thread').threads j = none := by
  intro j hj
  have hne : j ≠ i := by
    intro hji
    rw [← hji, h.fresh j hj] at hi
    cases hi
  unfold Gate.setThread
  simp only [Function.update_of_ne hne]
  exact h.fresh j hj

/-- A thread that keeps its context and its body, and its place if it has one. -/
theorem Inv.setThread (h : Inv g) (hi : g.threads i = some thread) (thread' : Thread)
    (hbase : thread'.base = thread.base) (hbody : thread'.body = thread.body)
    (hparked : thread'.parked = false)
    (hplace : ∀ e ∈ g.queue, e.thread = i → Place e thread') : Inv (g.setThread i thread') := by
  constructor
  · exact h.active
  · exact h.rest
  · intro e he
    by_cases hthread : e.thread = i
    · exact ⟨thread', by simp [Gate.setThread, hthread], hplace e he hthread⟩
    · obtain ⟨found, hfound, hold⟩ := h.places e he
      exact ⟨found, by simp [Gate.setThread, Function.update_of_ne hthread, hfound], hold⟩
  · exact h.nodup
  · intro j found hj hpark
    rcases threads_setThread hj with ⟨-, rfl⟩ | ⟨-, hj⟩
    · rw [hparked] at hpark
      cases hpark
    · exact h.parked j found hj hpark
  · intro j found t hj ht
    rcases threads_setThread hj with ⟨rfl, rfl⟩ | ⟨-, hj⟩
    · exact h.body j thread t hi (hbody ▸ ht)
    · exact h.body j found t hj ht
  · exact h.bases_setThread hi hbase
  · exact h.fresh_setThread hi _
  · exact h.opened
  · exact h.isolated
  · exact h.ordered
  · exact h.tokens

theorem waitingTokens_append (queue : List Entry) (e : Entry) :
    waitingTokens (queue ++ [e]) =
      waitingTokens queue ++ if e.started then [] else e.token.toList := by
  unfold waitingTokens
  rw [List.filter_append, List.filterMap_append]
  cases hstarted : e.started with
  | true => simp [hstarted]
  | false => cases htoken : e.token <;> simp [hstarted, htoken]

/-- A thread that has no place in the queue takes the last one. -/
theorem Inv.park (h : Inv g) (hi : g.threads i = some thread) (methods depth n : ℕ)
    (token : Option ℕ) (hout : ∀ e ∈ g.queue, e.thread ≠ i)
    (hdepth : token = none → 0 < depth ∧ depth ≤ methods)
    (htoken : (token = none ∧ n = g.nextToken) ∨ (token = some g.nextToken ∧ n = g.nextToken + 1)) :
    Inv { g.setThread i ⟨thread.base, none, methods, true⟩ with
      queue := g.queue ++ [⟨i, token, depth, false⟩], nextToken := n } := by
  have hwaiting := waitingTokens_append g.queue ⟨i, token, depth, false⟩
  simp only [Bool.false_eq_true, if_false] at hwaiting
  constructor
  · change g.activeTx = _
    rw [h.active]
    cases g.queue with
    | nil => rfl
    | cons head rest => rfl
  · intro e he
    change e ∈ (g.queue ++ [_]).tail at he
    cases hqueue : g.queue with
    | nil =>
      rw [hqueue] at he
      cases he
    | cons head rest =>
      rw [hqueue, List.cons_append, List.tail_cons, List.mem_append] at he
      rcases he with hrest | hnew
      · exact h.rest e (by rw [hqueue]; exact hrest)
      · rw [List.mem_singleton.mp hnew]
  · intro e he
    rcases List.mem_append.mp he with hold | hnew
    · obtain ⟨found, hfound, hplace⟩ := h.places e hold
      exact ⟨found, by simp [Gate.setThread, Function.update_of_ne (hout e hold), hfound], hplace⟩
    · rw [List.mem_singleton.mp hnew]
      refine ⟨⟨thread.base, none, methods, true⟩, by simp [Gate.setThread], rfl, hdepth, ?_⟩
      intro t _ hstarted
      cases hstarted
  · change ((g.queue ++ [_]).map _).Nodup
    rw [List.map_append, List.nodup_append]
    refine ⟨h.nodup, List.nodup_singleton _, ?_⟩
    intro a ha b hb
    obtain ⟨e, he, rfl⟩ := List.mem_map.mp ha
    rw [List.map_singleton, List.mem_singleton] at hb
    rw [hb]
    exact hout e he
  · intro j found hj hpark
    rcases threads_setThread hj with ⟨hji, rfl⟩ | ⟨-, hj⟩
    · exact ⟨_, List.mem_append_right _ (List.mem_singleton_self _), hji.symm, rfl⟩
    · obtain ⟨e, he, hthread, hwaits⟩ := h.parked j found hj hpark
      exact ⟨e, List.mem_append_left _ he, hthread, hwaits⟩
  · intro j found t hj ht
    rcases threads_setThread hj with ⟨-, rfl⟩ | ⟨hji, hj⟩
    · cases ht
    · obtain ⟨e, rest, hqueue, hhead⟩ := h.body j found t hj ht
      refine ⟨e, rest ++ [⟨i, token, depth, false⟩], ?_, hhead⟩
      change g.queue ++ _ = _
      rw [hqueue, List.cons_append]
  · exact h.bases_setThread hi rfl
  · exact h.fresh_setThread hi _
  · exact h.opened
  · exact h.isolated
  · change ((waitingTokens (g.queue ++ [_])).reverse ++ begun g.trace).Pairwise _
    rw [hwaiting]
    rcases htoken with ⟨rfl, -⟩ | ⟨rfl, -⟩
    · rw [Option.toList_none, List.append_nil]
      exact h.ordered
    · rw [Option.toList_some, List.reverse_append, List.reverse_singleton, List.append_assoc,
        List.singleton_append]
      exact List.pairwise_cons.mpr ⟨h.tokens, h.ordered⟩
  · intro t ht
    change t ∈ (waitingTokens (g.queue ++ [_])).reverse ++ begun g.trace at ht
    change t < n
    rw [hwaiting] at ht
    rcases htoken with ⟨rfl, rfl⟩ | ⟨rfl, rfl⟩
    · rw [Option.toList_none, List.append_nil] at ht
      exact h.tokens t ht
    · rw [Option.toList_some, List.reverse_append, List.reverse_singleton, List.append_assoc,
        List.singleton_append] at ht
      rcases List.mem_cons.mp ht with rfl | ht
      · exact Nat.lt_succ_self _
      · exact Nat.lt_succ_of_lt (h.tokens t ht)

/-- The first entry of the queue leaves it, and what its thread was doing is
over. -/
theorem Inv.pop (h : Inv g) {e : Entry} {rest : List Entry} (hqueue : g.queue = e :: rest)
    (hi : g.threads e.thread = some thread) (methods : ℕ) {trace : List Event}
    (htrace : Isolated trace) (hopened : Database.opened trace = none)
    (hbegun : begun trace = begun g.trace) :
    Inv { g.setThread e.thread ⟨thread.base, none, methods, false⟩ with
      activeTx := none, queue := rest, trace := trace } := by
  have hrest : ∀ e' ∈ rest, e'.started = false := by
    intro e' he'
    exact h.rest e' (by rw [hqueue]; exact he')
  have hnodup := h.nodup
  rw [hqueue, List.map_cons, List.nodup_cons] at hnodup
  have hother : ∀ e' ∈ rest, e'.thread ≠ e.thread := by
    intro e' he' hsame
    exact hnodup.1 (hsame ▸ List.mem_map_of_mem he')
  have hsub : ((waitingTokens rest).reverse ++ begun trace).Sublist
      ((waitingTokens g.queue).reverse ++ begun g.trace) := by
    rw [hbegun, hqueue]
    apply List.Sublist.append_right
    apply List.Sublist.reverse
    unfold waitingTokens
    exact ((List.sublist_cons_self e rest).filter _).filterMap _
  constructor
  · change none = headToken rest
    cases hcase : rest with
    | nil => rfl
    | cons head tail =>
      rw [headToken, hrest head (by rw [hcase]; exact List.mem_cons_self)]
      rfl
  · intro e' he'
    exact hrest e' (List.mem_of_mem_tail he')
  · intro e' he'
    obtain ⟨found, hfound, hplace⟩ := h.places e' (by rw [hqueue]; exact List.mem_cons_of_mem e he')
    exact ⟨found, by simp [Gate.setThread, Function.update_of_ne (hother e' he'), hfound], hplace⟩
  · exact hnodup.2
  · intro j found hj hpark
    rcases threads_setThread hj with ⟨-, rfl⟩ | ⟨hje, hj⟩
    · cases hpark
    · obtain ⟨e', he', hthread, hwaits⟩ := h.parked j found hj hpark
      rw [hqueue] at he'
      rcases List.mem_cons.mp he' with rfl | he'
      · exact absurd hthread.symm hje
      · exact ⟨e', he', hthread, hwaits⟩
  · intro j found t hj ht
    rcases threads_setThread hj with ⟨-, rfl⟩ | ⟨hje, hj⟩
    · cases ht
    · obtain ⟨e', rest', hqueue', hthread, -⟩ := h.body j found t hj ht
      rw [hqueue, List.cons.injEq] at hqueue'
      exact absurd (hqueue'.1 ▸ hthread).symm hje
  · intro j found t hj ht
    change t ∈ begun trace
    rw [hbegun]
    exact h.bases_setThread hi (by rfl) j found t hj ht
  · exact h.fresh_setThread hi _
  · exact hopened
  · exact htrace
  · exact h.ordered.sublist hsub
  · intro t ht
    exact h.tokens t (hsub.subset ht)

/-- The first entry of the queue starts. -/
theorem Inv.begins (h : Inv g) {depth : ℕ} {token : Option ℕ} {rest : List Entry}
    (hqueue : g.queue = ⟨i, token, depth, false⟩ :: rest) (hi : g.threads i = some thread)
    (body : Option ℕ) {trace : List Event} (hbody : ∀ t, body = some t ↔ token = some t)
    (htrace : Isolated trace) (hopened : Database.opened trace = token)
    (hbegun : begun trace = token.toList ++ begun g.trace) :
    Inv { g.setThread i ⟨thread.base, body, thread.methods, false⟩ with
      activeTx := token, queue := ⟨i, token, depth, true⟩ :: rest, trace := trace } := by
  have hnodup := h.nodup
  rw [hqueue, List.map_cons, List.nodup_cons] at hnodup
  have hother : ∀ e ∈ rest, e.thread ≠ i := by
    intro e he hsame
    exact hnodup.1 (List.mem_map.mpr ⟨e, he, hsame⟩)
  obtain ⟨found, hfound, hplace⟩ := h.places ⟨i, token, depth, false⟩ (by rw [hqueue]; simp)
  rw [hi, Option.some.injEq] at hfound
  subst hfound
  have hwaiting : (waitingTokens (⟨i, token, depth, true⟩ :: rest)).reverse ++ begun trace =
      (waitingTokens g.queue).reverse ++ begun g.trace := by
    rw [hbegun, hqueue]
    unfold waitingTokens
    cases token <;> simp
  have hnobody : ∀ j found t, g.threads j = some found → found.body ≠ some t := by
    intro j found t hj ht
    obtain ⟨e, rest', hqueue', -, -, hstarted⟩ := h.body j found t hj ht
    rw [hqueue, List.cons.injEq] at hqueue'
    rw [← hqueue'.1] at hstarted
    cases hstarted
  constructor
  · rfl
  · intro e he
    exact h.rest e (by rw [hqueue]; exact he)
  · intro e he
    rcases List.mem_cons.mp he with rfl | he
    · refine ⟨⟨thread.base, body, thread.methods, false⟩, by simp [Gate.setThread], rfl,
        hplace.call, ?_⟩
      intro t ht _
      exact (hbody t).mpr ht
    · obtain ⟨found, hfound, hold⟩ := h.places e (by rw [hqueue]; exact List.mem_cons_of_mem _ he)
      exact ⟨found, by simp [Gate.setThread, Function.update_of_ne (hother e he), hfound], hold⟩
  · exact List.nodup_cons.mpr hnodup
  · intro j found hj hpark
    rcases threads_setThread hj with ⟨-, rfl⟩ | ⟨hji, hj⟩
    · cases hpark
    · obtain ⟨e, he, hthread, hwaits⟩ := h.parked j found hj hpark
      rw [hqueue] at he
      rcases List.mem_cons.mp he with rfl | he
      · exact absurd hthread.symm hji
      · exact ⟨e, List.mem_cons_of_mem _ he, hthread, hwaits⟩
  · intro j found t hj ht
    rcases threads_setThread hj with ⟨hji, rfl⟩ | ⟨-, hj⟩
    · exact ⟨_, rest, rfl, hji.symm, (hbody t).mp ht, rfl⟩
    · exact absurd ht (hnobody j found t hj)
  · intro j found t hj ht
    change t ∈ begun trace
    rw [hbegun]
    apply List.mem_append_right
    exact h.bases_setThread hi (by rfl) j found t hj ht
  · exact h.fresh_setThread hi _
  · exact hopened
  · exact htrace
  · change ((waitingTokens _).reverse ++ begun trace).Pairwise _
    rw [hwaiting]
    exact h.ordered
  · intro t ht
    change t ∈ (waitingTokens _).reverse ++ begun trace at ht
    rw [hwaiting] at ht
    exact h.tokens t ht

/-! ## Steps -/

theorem running_eq_some (h : g.running i = some thread) :
    g.threads i = some thread ∧ thread.parked = false := by
  obtain ⟨hi, hrunning⟩ := Option.filter_eq_some_iff.mp h
  exact ⟨hi, by simpa using hrunning⟩

theorem Inv.activeTx_of_head (h : Inv g) {e : Entry} {rest : List Entry}
    (hqueue : g.queue = e :: rest) : g.activeTx = if e.started then e.token else none := by
  rw [h.active, hqueue]
  rfl

/-- While the head of the queue is no open transaction, no thread runs a body. -/
theorem Inv.body_eq_none (h : Inv g) (hactive : g.activeTx = none)
    (hi : g.threads i = some thread) : thread.body = none := by
  cases hbody : thread.body with
  | none => rfl
  | some t =>
    have hopen := h.active_of_body hi hbody
    rw [hactive] at hopen
    cases hopen

theorem Inv.mediate (h : Inv g) (hi : g.threads i = some thread)
    (hparked : thread.parked = false) : Inv (g.mediate i thread) := by
  unfold Gate.mediate
  by_cases hentitled : (g.activeTx.isNone || g.ownsOpenTransaction thread) = true
  · simp only [hentitled, if_true]
    have hplaces : ∀ e ∈ g.queue, e.thread = i →
        Place e { thread with methods := thread.methods + 1 } := by
      intro e he hthread
      obtain ⟨-, -, -, hplace⟩ := h.head_of_running hi hparked he hthread
      refine ⟨hplace.parked, fun hcall => ?_, hplace.body⟩
      obtain ⟨hpos, hle⟩ := hplace.call hcall
      exact ⟨hpos, Nat.le_succ_of_le hle⟩
    have hset := h.setThread hi { thread with methods := thread.methods + 1 } rfl rfl hparked hplaces
    have hthread : (g.setThread i { thread with methods := thread.methods + 1 }).threads i =
        some { thread with methods := thread.methods + 1 } := by simp [Gate.setThread]
    have hstatement := hset.statement hthread
    apply hstatement
    intro t ht
    change g.activeTx = some t at ht
    change thread.context = some t
    rw [ht] at hentitled
    unfold Gate.ownsOpenTransaction at hentitled
    rw [ht] at hentitled
    simpa using hentitled
  · rw [Bool.not_eq_true, Bool.or_eq_false_iff] at hentitled
    obtain ⟨hopen, hnot⟩ := hentitled
    rw [hopen, hnot]
    have hbody : thread.body = none := by
      cases hbody : thread.body with
      | none => rfl
      | some t =>
        have howns := h.context_of_body hi hbody
        rw [hnot] at howns
        cases howns
    have hout : ∀ e ∈ g.queue, e.thread ≠ i := by
      intro e he hthread
      obtain ⟨rest, hqueue, hstarted, hplace⟩ := h.head_of_running hi hparked he hthread
      have hactive := h.activeTx_of_head hqueue
      rw [if_pos hstarted] at hactive
      cases htoken : e.token with
      | none =>
        rw [hactive, htoken] at hopen
        cases hopen
      | some t =>
        have hown := hplace.body t htoken hstarted
        rw [hbody] at hown
        cases hown
    have hpark := h.park hi (thread.methods + 1) (thread.methods + 1) g.nextToken none hout
      (fun _ => ⟨Nat.succ_pos _, le_rfl⟩) (.inl ⟨rfl, rfl⟩)
    simp only [Bool.or_self, Bool.false_eq_true, if_false, hbody]
    exact hpark

theorem Inv.transaction (h : Inv g) (hi : g.threads i = some thread)
    (hparked : thread.parked = false) (hmethods : thread.methods = 0) :
    Inv (g.transaction i thread) := by
  unfold Gate.transaction
  by_cases howns : g.ownsOpenTransaction thread = true
  · rw [if_pos howns]
    exact h
  · rw [if_neg howns]
    rw [Bool.not_eq_true] at howns
    have hbody : thread.body = none := by
      cases hbody : thread.body with
      | none => rfl
      | some t =>
        have hown := h.context_of_body hi hbody
        rw [howns] at hown
        cases hown
    have hout : ∀ e ∈ g.queue, e.thread ≠ i := by
      intro e he hthread
      obtain ⟨rest, hqueue, hstarted, hplace⟩ := h.head_of_running hi hparked he hthread
      cases htoken : e.token with
      | none =>
        have hdepth := hplace.call htoken
        omega
      | some t =>
        have hown := hplace.body t htoken hstarted
        rw [hbody] at hown
        cases hown
    have hpark := h.park hi thread.methods 0 (g.nextToken + 1) (some g.nextToken) hout nofun
      (.inr ⟨rfl, rfl⟩)
    simp only [hbody]
    exact hpark

theorem Inv.start (h : Inv g) (hstep : g.start = some g') : Inv g' := by
  unfold Gate.start at hstep
  split at hstep
  · rename_i i token depth rest hqueue
    obtain ⟨thread, hi, rfl⟩ := Option.map_eq_some_iff.mp hstep
    have hactive : g.activeTx = none := h.activeTx_of_head hqueue
    have hbody := h.body_eq_none hactive hi
    have hopened : Database.opened g.trace = none := h.opened.trans hactive
    cases token with
    | none =>
      have hisolated : Isolated (.statement thread.context thread.body :: g.trace) := by
        refine ⟨h.isolated, fun t ht => ?_, fun t ht => ?_, fun t ht => h.context_begun hi ht⟩
        · rw [hopened] at ht
          cases ht
        · rw [hbody] at ht
          cases ht
      have hbegins := h.begins hqueue hi none (by simp) hisolated hopened rfl
      simp only [hbody] at hbegins ⊢
      rw [hactive]
      exact hbegins
    | some t =>
      have hisolated : Isolated (.begin t :: g.trace) := ⟨h.isolated, hopened⟩
      exact h.begins hqueue hi (some t) (fun _ => Iff.rfl) hisolated rfl rfl
  · cases hstep

theorem Inv.startFails (h : Inv g) (hstep : g.startFails = some g') : Inv g' := by
  unfold Gate.startFails at hstep
  split at hstep
  · rename_i i token depth rest hqueue
    obtain ⟨thread, hi, rfl⟩ := Option.map_eq_some_iff.mp hstep
    have hactive : g.activeTx = none := h.activeTx_of_head hqueue
    have hbody := h.body_eq_none hactive hi
    have hpop := h.pop hqueue hi thread.methods h.isolated (h.opened.trans hactive) rfl
    simp only [hbody]
    rw [hactive]
    exact hpop
  · cases hstep

/-- A thread without a place ends. -/
theorem Inv.remove (h : Inv g) (hout : ∀ e ∈ g.queue, e.thread ≠ i) :
    Inv { g with threads := Function.update g.threads i none } := by
  have hleft : ∀ j found, Function.update g.threads i none j = some found →
      g.threads j = some found := by
    intro j found hj
    by_cases hji : j = i
    · rw [hji, Function.update_self] at hj
      cases hj
    · rw [Function.update_of_ne hji] at hj
      exact hj
  constructor
  · exact h.active
  · exact h.rest
  · intro e he
    obtain ⟨found, hfound, hplace⟩ := h.places e he
    exact ⟨found, by simp [Function.update_of_ne (hout e he), hfound], hplace⟩
  · exact h.nodup
  · exact fun j found hj => h.parked j found (hleft j found hj)
  · exact fun j found t hj => h.body j found t (hleft j found hj)
  · exact fun j found t hj => h.bases j found t (hleft j found hj)
  · intro j hj
    by_cases hji : j = i
    · simp [hji]
    · simp only [Function.update_of_ne hji]
      exact h.fresh j hj
  · exact h.opened
  · exact h.isolated
  · exact h.ordered
  · exact h.tokens

theorem settle_cases (queue : List Entry) (i depth : ℕ) :
    (∃ e rest, queue = e :: rest ∧ e.started = true ∧ e.thread = i ∧ e.token = none ∧
      e.depth = depth ∧ settle queue i depth = rest) ∨
    (settle queue i depth = queue ∧ ∀ e rest, queue = e :: rest → e.started = true →
      e.thread = i → e.token = none → e.depth ≠ depth) := by
  cases queue with
  | nil => exact .inr ⟨rfl, nofun⟩
  | cons e rest =>
    have hsettle : settle (e :: rest) i depth =
        if e.started && e.thread == i && e.token.isNone && e.depth == depth then rest
        else e :: rest := rfl
    rw [hsettle]
    by_cases hover : (e.started && e.thread == i && e.token.isNone && e.depth == depth) = true
    · rw [if_pos hover]
      simp only [Bool.and_eq_true, beq_iff_eq, Option.isNone_iff_eq_none] at hover
      obtain ⟨⟨⟨hstarted, hthread⟩, htoken⟩, hdepth⟩ := hover
      exact .inl ⟨e, rest, rfl, hstarted, hthread, htoken, hdepth, rfl⟩
    · rw [if_neg hover]
      refine .inr ⟨rfl, ?_⟩
      intro e' rest' hqueue hstarted hthread htoken hdepth
      rw [List.cons.injEq] at hqueue
      obtain ⟨rfl, -⟩ := hqueue
      simp [hstarted, hthread, htoken, hdepth] at hover

theorem Inv.finish (h : Inv g) (hi : g.threads i = some thread) (hparked : thread.parked = false)
    (threw : Bool) : Inv (g.finish i thread threw) := by
  unfold Gate.finish
  by_cases hmethods : 0 < thread.methods
  · rw [if_pos hmethods]
    rcases settle_cases g.queue i thread.methods with
      ⟨e, rest, hqueue, hstarted, hthread, htoken, -, hsettle⟩ | ⟨hsettle, hother⟩
    · have hactive : g.activeTx = none := by
        rw [h.activeTx_of_head hqueue, if_pos hstarted, htoken]
      have hbody := h.body_eq_none hactive hi
      subst hthread
      have hpop := h.pop hqueue hi (thread.methods - 1) h.isolated (h.opened.trans hactive) rfl
      change Inv { g.setThread e.thread
          ⟨thread.base, thread.body, thread.methods - 1, thread.parked⟩ with
        activeTx := g.activeTx, queue := settle g.queue e.thread thread.methods, trace := g.trace }
      rw [hactive, hsettle, hbody, hparked]
      exact hpop
    · rw [hsettle]
      apply h.setThread hi { thread with methods := thread.methods - 1 } rfl rfl hparked
      intro e he hthread
      obtain ⟨rest, hqueue, hstarted, hplace⟩ := h.head_of_running hi hparked he hthread
      refine ⟨hplace.parked, fun hcall => ?_, hplace.body⟩
      have hdepth := hplace.call hcall
      have hne := hother e rest hqueue hstarted hthread hcall
      change 0 < e.depth ∧ e.depth ≤ thread.methods - 1
      omega
  · rw [if_neg hmethods]
    cases hbody : thread.body with
    | some t =>
      obtain ⟨e, rest, hqueue, rfl, htoken, hstarted⟩ := h.body i thread t hi hbody
      have hopened : Database.opened g.trace = some t :=
        h.opened.trans (h.active_of_body hi hbody)
      simp only
      cases threw with
      | true =>
        have hisolated : Isolated (.rollback t :: g.trace) := ⟨h.isolated, hopened⟩
        have hpop := h.pop hqueue hi thread.methods hisolated rfl rfl
        rw [← hparked] at hpop
        rw [hqueue]
        exact hpop
      | false =>
        have hisolated : Isolated (.commit t :: g.trace) := ⟨h.isolated, hopened⟩
        have hpop := h.pop hqueue hi thread.methods hisolated rfl rfl
        rw [← hparked] at hpop
        rw [hqueue]
        exact hpop
    | none =>
      apply h.remove
      intro e he hthread
      obtain ⟨rest, hqueue, hstarted, hplace⟩ := h.head_of_running hi hparked he hthread
      cases htoken : e.token with
      | none =>
        have hdepth := hplace.call htoken
        omega
      | some t =>
        have hown := hplace.body t htoken hstarted
        rw [hbody] at hown
        cases hown

theorem Inv.step (h : Inv g) {action : Action} (hstep : g.step action = some g') : Inv g' := by
  cases action with
  | arrive =>
    cases hstep
    exact h.launch nofun
  | spawn i =>
    obtain ⟨thread, hrunning, rfl⟩ := Option.map_eq_some_iff.mp hstep
    obtain ⟨hi, -⟩ := running_eq_some hrunning
    exact h.launch fun t ht => h.context_begun hi ht
  | call i =>
    obtain ⟨thread, hrunning, rfl⟩ := Option.map_eq_some_iff.mp hstep
    obtain ⟨hi, hparked⟩ := running_eq_some hrunning
    exact h.mediate hi hparked
  | transaction i =>
    obtain ⟨thread, hfiltered, rfl⟩ := Option.map_eq_some_iff.mp hstep
    obtain ⟨hrunning, hmethods⟩ := Option.filter_eq_some_iff.mp hfiltered
    obtain ⟨hi, hparked⟩ := running_eq_some hrunning
    exact h.transaction hi hparked (by simpa using hmethods)
  | raw i =>
    obtain ⟨thread, hfiltered, rfl⟩ := Option.map_eq_some_iff.mp hstep
    obtain ⟨hrunning, howns⟩ := Option.filter_eq_some_iff.mp hfiltered
    obtain ⟨hi, -⟩ := running_eq_some hrunning
    apply h.statement hi
    intro t ht
    unfold Gate.ownsOpenTransaction at howns
    rw [ht] at howns
    simpa using howns
  | probe i =>
    obtain ⟨thread, -, rfl⟩ := Option.map_eq_some_iff.mp hstep
    exact h.probe thread.context
  | start => exact h.start hstep
  | startFails => exact h.startFails hstep
  | finish i threw =>
    obtain ⟨thread, hrunning, rfl⟩ := Option.map_eq_some_iff.mp hstep
    obtain ⟨hi, hparked⟩ := running_eq_some hrunning
    exact h.finish hi hparked threw

theorem Inv.run (h : Inv g) {actions : List Action} (hrun : g.run actions = some g') : Inv g' := by
  induction actions generalizing g with
  | nil =>
    cases hrun
    exact h
  | cons action actions ih =>
    unfold Gate.run at hrun
    rw [List.foldlM_cons] at hrun
    obtain ⟨g₁, hstep, hrest⟩ := Option.bind_eq_some_iff.mp hrun
    exact ih (h.step hstep) hrest

/-! ## The gate -/

/-- The head of the queue can start, or its thread waits for nothing: it runs the
body of the transaction that is open, or it is inside a repository call. -/
theorem Inv.head_progresses (h : Inv g) {e : Entry} {rest : List Entry}
    (hqueue : g.queue = e :: rest) :
    (e.started = false ∧ (g.step .start).isSome = true) ∨
      ∃ thread, g.running e.thread = some thread ∧
        ((∃ t, g.activeTx = some t ∧ thread.body = some t) ∨ 0 < thread.methods) := by
  obtain ⟨thread, hthread, hplace⟩ := h.places e (by rw [hqueue]; exact List.mem_cons_self)
  cases hstarted : e.started with
  | false =>
    refine .inl ⟨rfl, ?_⟩
    obtain ⟨i, token, depth, started⟩ := e
    simp only at hstarted hthread
    subst hstarted
    unfold Gate.step Gate.start
    simp only [hqueue, hthread]
    rfl
  | true =>
    refine .inr ⟨thread, ?_, ?_⟩
    · unfold Gate.running
      rw [hthread, Option.filter_some, hplace.parked, hstarted]
      rfl
    · cases htoken : e.token with
      | none =>
        have hdepth := hplace.call htoken
        right
        omega
      | some t =>
        have hactive := h.activeTx_of_head hqueue
        rw [if_pos hstarted, htoken] at hactive
        exact .inl ⟨t, hactive, hplace.body t htoken hstarted⟩

/-- After any steps: the trace keeps transactions apart, transactions have opened
in the order they were asked for, whoever waits has a place in the queue, and the
head of the queue can go on. -/
theorem gate_isolates_transactions {actions : List Action} {g : Gate}
    (hrun : Gate.init.run actions = some g) :
    Isolated g.trace ∧ (begun g.trace).Pairwise (· > ·) ∧
    (∀ i thread, g.threads i = some thread → thread.parked = true →
      ∃ e ∈ g.queue, e.thread = i ∧ e.started = false) ∧
    ∀ e rest, g.queue = e :: rest →
      (e.started = false ∧ (g.step .start).isSome = true) ∨
        ∃ thread, g.running e.thread = some thread ∧
          ((∃ t, g.activeTx = some t ∧ thread.body = some t) ∨ 0 < thread.methods) := by
  have hinv := Inv.init.run hrun
  exact ⟨hinv.isolated, (List.pairwise_append.mp hinv.ordered).2.1, hinv.parked,
    fun e rest hqueue => hinv.head_progresses hqueue⟩

/-- A call is made while another caller's transaction is open. -/
def handover : List Action :=
  [.arrive, .arrive, .transaction 0, .start, .call 1, .call 0, .finish 0 false, .finish 0 false,
    .start]

theorem gate_isolates_transactions_handover :
    ∃ g, Gate.init.run handover = some g ∧
      g.trace = [.statement none none, .commit 0, .statement (some 0) (some 0), .begin 0] ∧
      Isolated g.trace :=
  ⟨_, rfl, rfl, (gate_isolates_transactions (show Gate.init.run handover = some _ from rfl)).1⟩

/-- A health check of another caller's reaches the connection inside an open
transaction. -/
theorem probe_inside_transaction :
    ∃ g, Gate.init.run [.arrive, .arrive, .transaction 0, .start, .probe 1] = some g ∧
      g.trace = [.probe none, .begin 0] ∧ opened g.trace = some 0 :=
  ⟨_, rfl, rfl, rfl⟩

end FerrumNexus.Database
