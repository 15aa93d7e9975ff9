import FerrumNexus.Agents.Stamped

/-!
# The MCP endpoint is nobody's route

A route pattern keeps the slashes of its path template, and a parameter never
takes one. So a request under the endpoint meets a template segment by segment:
the listen path takes the listen path, and the first segment of the template has
to take `mcp`, which a checked template refuses.
-/
namespace FerrumNexus.Agents

open OpenApi Platform

/-! ## Patterns and their slashes -/

/-- A slash ends whatever is open before it. -/
theorem pathRegex_slash (opened : Option (List Char)) (before after : List Char) :
    pathRegex opened (before ++ '/' :: after) =
      pathRegex opened before ++ some '/' :: pathRegex none after := by
  induction before generalizing opened with
  | nil =>
    cases opened with
    | none => simp [pathRegex]
    | some text => simp [pathRegex]
  | cons c before ih =>
    cases opened with
    | none =>
      simp only [List.cons_append, pathRegex]
      split
      · exact ih (some [])
      · rw [ih none, List.cons_append]
    | some text =>
      simp only [List.cons_append, pathRegex]
      split
      · rw [ih none, List.cons_append]
      split
      · rw [ih (some []), List.cons_append, List.append_assoc]
      split
      · rw [ih none, List.cons_append, List.append_assoc, List.cons_append]
      · exact ih (some (c :: text))

/-- A pattern has the slashes of its template. -/
theorem pathRegex_count (opened : Option (List Char)) (hopened : ∀ text, opened = some text → '/' ∉ text)
    (path : List Char) : (pathRegex opened path).count (some '/') = path.count '/' := by
  have hflush {text : List Char} (h : '/' ∉ text) :
      (some '{' :: text.reverse.map some).count (some '/') = 0 := by
    rw [List.count_eq_zero]
    simpa using h
  induction path generalizing opened with
  | nil =>
    cases opened with
    | none => rfl
    | some text => exact hflush (hopened text rfl)
  | cons c path ih =>
    have hnone := ih none fun _ h => by cases h
    have hempty := ih (some []) fun text h => by
      cases h
      exact List.not_mem_nil
    cases opened with
    | none =>
      rw [pathRegex]
      split
      · rename_i hc
        subst hc
        rw [hempty, List.count_cons_of_ne (by decide)]
      · rw [List.count_cons, List.count_cons, hnone]
        simp
    | some text =>
      have htext := hopened text rfl
      rw [pathRegex]
      split
      · rename_i hc
        rw [List.count_cons_of_ne (by simp), hnone, hc.1, List.count_cons_of_ne (by decide)]
      split
      · rename_i hc
        rw [List.count_append, hflush htext, hempty, hc, List.count_cons_of_ne (by decide), Nat.zero_add]
      split
      · rw [List.count_append, hflush htext, Nat.zero_add, List.count_cons, List.count_cons, hnone]
        simp
      · rename_i hc
        rw [not_or] at hc
        rw [ih (some (c :: text)) fun text' h => by
          cases h
          exact List.not_mem_cons_of_ne_of_not_mem (Ne.symm hc.2) htext]
        rw [List.count_cons_of_ne hc.2]

variable {rest segment text : List Char}

theorem matchesPath_count {tokens : List (Option Char)} (h : matchesPath tokens text = true) :
    text.count '/' = tokens.count (some '/') := by
  induction text generalizing tokens with
  | nil =>
    cases tokens with
    | nil => rfl
    | cons token tokens => cases token <;> simp [matchesPath] at h
  | cons d rest ih =>
    cases tokens with
    | nil => simp [matchesPath] at h
    | cons token tokens =>
      cases token with
      | some c =>
        simp only [matchesPath, Bool.and_eq_true, beq_iff_eq] at h
        rw [← h.1, List.count_cons, List.count_cons, ih h.2]
        simp
      | none =>
        simp only [matchesPath, Bool.and_eq_true, bne_iff_ne, Bool.or_eq_true] at h
        rw [List.count_cons_of_ne h.1]
        rcases h.2 with hrest | hrest
        · rw [ih hrest, List.count_cons_of_ne (by simp)]
        · exact ih hrest

/-- A slash of the pattern takes a slash of the text. -/
theorem matchesPath_slash {before after : List (Option Char)}
    (h : matchesPath (before ++ some '/' :: after) text = true) :
    ∃ left right, text = left ++ '/' :: right ∧ matchesPath before left = true ∧
      matchesPath after right = true := by
  induction text generalizing before with
  | nil =>
    cases before with
    | nil => simp [matchesPath] at h
    | cons token before => cases token <;> simp [matchesPath] at h
  | cons d rest ih =>
    cases before with
    | nil =>
      simp only [List.nil_append, matchesPath, Bool.and_eq_true, beq_iff_eq] at h
      exact ⟨[], rest, by rw [← h.1]; rfl, rfl, h.2⟩
    | cons token before =>
      cases token with
      | some c =>
        simp only [List.cons_append, matchesPath, Bool.and_eq_true, beq_iff_eq] at h
        obtain ⟨left, right, rfl, hleft, hright⟩ := ih h.2
        exact ⟨d :: left, right, rfl, by simp [matchesPath, h.1, hleft], hright⟩
      | none =>
        simp only [List.cons_append, matchesPath, Bool.and_eq_true, bne_iff_ne, Bool.or_eq_true] at h
        rcases h.2 with hrest | hrest
        · obtain ⟨left, right, rfl, hleft, hright⟩ := ih hrest
          exact ⟨d :: left, right, rfl, by simp [matchesPath, h.1, hleft], hright⟩
        · rw [← List.cons_append] at hrest
          obtain ⟨left, right, rfl, hleft, hright⟩ := ih hrest
          exact ⟨d :: left, right, rfl, by simp [matchesPath, h.1, hleft], hright⟩

/-- Texts with as many slashes before one of theirs agree up to it. -/
theorem slash_unique {left right left' right' : List Char}
    (h : left ++ '/' :: right = left' ++ '/' :: right') (hcount : left.count '/' = left'.count '/') :
    left = left' ∧ right = right' := by
  induction left generalizing left' with
  | nil =>
    cases left' with
    | nil => simpa using h
    | cons c left' =>
      rw [List.nil_append, List.cons_append, List.cons.injEq] at h
      rw [← h.1, List.count_cons_self] at hcount
      simp at hcount
  | cons c left ih =>
    cases left' with
    | nil =>
      rw [List.nil_append, List.cons_append, List.cons.injEq] at h
      rw [h.1, List.count_cons_self] at hcount
      simp at hcount
    | cons c' left' =>
      rw [List.cons_append, List.cons_append, List.cons.injEq] at h
      obtain ⟨rfl, h⟩ := h
      rw [List.count_cons, List.count_cons, Nat.add_right_cancel_iff] at hcount
      obtain ⟨rfl, rfl⟩ := ih h hcount
      exact ⟨rfl, rfl⟩

/-! ## Checked templates -/

/-- What every operation of an accepted document passed. -/
theorem checkPaths_ok {operations : List AgentOperation} (h : checkPaths operations = .ok ())
    {operation : AgentOperation} (hmem : operation ∈ operations) :
    isCanonicalPath operation.path.toList = true ∧ coversEndpoint operation.path.toList = false := by
  induction operations with
  | nil => cases hmem
  | cons first rest ih =>
    simp only [checkPaths, invalid] at h
    split at h
    · cases h
    rename_i hcanonical
    split at h
    · cases h
    rename_i hcovers
    rcases List.mem_cons.mp hmem with rfl | hmem
    · exact ⟨by simpa using hcanonical, by simpa using hcovers⟩
    · exact ih h hmem

/-- Without braces a segment is taken as it is written. -/
theorem pathRegex_plain (h : segment.any isBrace = false) :
    pathRegex none segment = segment.map some := by
  induction segment with
  | nil => rfl
  | cons c segment ih =>
    rw [List.any_cons, Bool.or_eq_false_iff] at h
    have hc : c ≠ '{' := by
      rintro rfl
      exact absurd h.1 (by decide)
    rw [pathRegex, if_neg hc, ih h.2, List.map_cons]

theorem matchesPath_plain (h : matchesPath (segment.map some) text = true) : segment = text := by
  induction segment generalizing text with
  | nil =>
    cases text with
    | nil => rfl
    | cons => cases h
  | cons c segment ih =>
    cases text with
    | nil => cases h
    | cons d text =>
      simp only [List.map_cons, matchesPath, Bool.and_eq_true, beq_iff_eq] at h
      rw [h.1, ih h.2]

/-- No template that was checked takes `mcp` as its first segment, or has it as
the only one. -/
theorem checked_not_mcp {tail : List Char} (hcanonical : isCanonicalPath ('/' :: tail) = true)
    (hcovers : coversEndpoint ('/' :: tail) = false)
    (hrest : rest = [] ∨ ∃ below, rest = '/' :: below) :
    matchesPath (pathRegex none tail) ("mcp".toList ++ rest) = false := by
  by_contra h
  rw [Bool.not_eq_false] at h
  have hnone : ∀ text : List Char, (none : Option (List Char)) = some text → '/' ∉ text :=
    fun _ h => by cases h
  simp only [coversEndpoint, Bool.or_eq_false_iff] at hcovers
  obtain ⟨⟨⟨hmatch, hbelow⟩, -⟩, hfirst⟩ := hcovers
  by_cases hslash : '/' ∈ tail
  · obtain ⟨segment, tail', rfl, hsegment⟩ := List.eq_append_cons_of_mem hslash
    rw [pathRegex_slash] at h
    obtain ⟨left, right, hsplit, hleft, -⟩ := matchesPath_slash h
    have hcount : left.count '/' = "mcp".toList.count '/' := by
      rw [matchesPath_count hleft, pathRegex_count none hnone, List.count_eq_zero.mpr hsegment]
      rfl
    rcases hrest with rfl | ⟨below, rfl⟩
    · have hmem : '/' ∈ "mcp".toList ++ [] := by
        rw [hsplit]
        simp
      exact absurd hmem (by decide)
    · obtain ⟨rfl, -⟩ := slash_unique hsplit.symm hcount
      have hsplitOn : ('/' :: (segment ++ '/' :: tail')).splitOn '/' =
          [] :: segment :: tail'.splitOn '/' := by
        rw [← List.nil_append ('/' :: _), List.splitOn_append_cons_self,
          List.splitOn_append_cons_self, List.splitOn_eq_singleton hsegment]
        rfl
      rw [hsplitOn] at hfirst
      have hplain : segment.any isBrace = false := by
        simp only [isCanonicalPath, hsplitOn, Bool.and_eq_true, Bool.not_eq_true',
          List.any_cons, Bool.or_eq_false_iff] at hcanonical
        have hbrace := hcanonical.2.2.1
        simp only [List.getElem?_cons_succ, List.getElem?_cons_zero, Option.getD_some] at hfirst
        simpa [hfirst] using hbrace
      rw [pathRegex_plain hplain] at hleft
      rw [matchesPath_plain hleft] at hbelow
      exact absurd hbelow (by simp [List.isPrefixOf])
  · have hcount := matchesPath_count h
    rw [pathRegex_count none hnone, List.count_eq_zero.mpr hslash, List.count_append] at hcount
    rcases hrest with rfl | ⟨below, rfl⟩
    · have hroot : pathRegex none ('/' :: tail) = some '/' :: pathRegex none tail :=
        pathRegex_slash none [] tail
      rw [hroot] at hmatch
      rw [List.append_nil] at h
      have htrue : matchesPath (some '/' :: pathRegex none tail) "/mcp".toList = true := by
        show ('/' == '/' && matchesPath (pathRegex none tail) "mcp".toList) = true
        rw [h]
        rfl
      rw [htrue] at hmatch
      cases hmatch
    · rw [List.count_cons_self] at hcount
      omega

/-- Nothing a checked template is mounted as takes the endpoint. -/
theorem mounted_not_endpoint {listenPath path : String} (hslash : path.toList.head? = some '/')
    (hcanonical : isCanonicalPath path.toList = true) (hcovers : coversEndpoint path.toList = false)
    (hrest : rest = [] ∨ ∃ below, rest = '/' :: below) :
    matchesPath (pathRegex none (mounted listenPath path).toList)
      ((agentEndpointPath listenPath).toList ++ rest) = false := by
  have hnone : ∀ text : List Char, (none : Option (List Char)) = some text → '/' ∉ text :=
    fun _ h => by cases h
  have hendpoint : (agentEndpointPath listenPath).toList ++ rest =
      listenPath.toList ++ '/' :: ("mcp".toList ++ rest) := by
    simp [agentEndpointPath]
  rw [hendpoint, mounted]
  by_contra h
  rw [Bool.not_eq_false] at h
  split at h
  · have hcount := matchesPath_count h
    rw [pathRegex_count none hnone, List.count_append, List.count_cons_self] at hcount
    omega
  · obtain ⟨tail, htail⟩ : ∃ tail, path.toList = '/' :: tail := by
      cases hlist : path.toList with
      | nil =>
        rw [hlist] at hslash
        cases hslash
      | cons c tail =>
        rw [hlist] at hslash
        cases hslash
        exact ⟨tail, rfl⟩
    rw [String.toList_append, htail, pathRegex_slash] at h
    obtain ⟨left, right, hsplit, hleft, hright⟩ := matchesPath_slash h
    have hcount : left.count '/' = listenPath.toList.count '/' := by
      rw [matchesPath_count hleft, pathRegex_count none hnone]
    obtain ⟨-, rfl⟩ := slash_unique hsplit.symm hcount
    rw [htail] at hcanonical hcovers
    rw [checked_not_mcp hcanonical hcovers hrest] at hright
    cases hright

section Shadowing

variable {ι : Type} [DecidableEq ι] [Fintype ι] {doc : Document ι}
  {digest : Document ι → List AgentToolSelection → ℕ → String} {sha256 : String → String}

/-- Wherever an accepted document is mounted, no route of it matches the MCP
endpoint or a path under it. -/
theorem routes_never_match_endpoint {deployment : AgentDeployment} {enforcement : Publishing.Level}
    {requestable : Bool} {methods : Option (List HttpMethod)} {listenPaths : Option (List String)}
    {maxOperations : Option ℕ}
    (hvalid : validateAgents (documentReader digest sha256) (some deployment.agents) doc enforcement
      requestable methods listenPaths maxOperations = .ok ()) :
    ∀ proxy stamped, stampAgentDocument doc proxy deployment = .ok stamped →
      ∀ route ∈ stamped.routes, ∀ request : String,
        request = agentEndpointPath proxy.listen_path ∨
          (agentEndpointPath proxy.listen_path ++ "/").toList <+: request.toList →
        matchesPath route.path_regex request.toList = false := by
  intro proxy stamped hstamped route hroute request hrequest
  obtain ⟨operations, hoperations, -, hpaths⟩ := validateAgents_checks hvalid
  obtain ⟨listed, hlisted, rfl⟩ := documentReader_operations hoperations
  obtain ⟨items, hitems, -, -, hroutes, -⟩ := stampAgentDocument_ok hstamped
  rw [hroutes, ← agentOperations_merged hitems hlisted] at hroute
  obtain ⟨operation, hoperation, rfl⟩ := List.mem_map.mp hroute
  obtain ⟨hcanonical, hcovers⟩ := checkPaths_ok hpaths (List.mem_map_of_mem hoperation)
  have hslash : operation.path.toList.head? = some '/' := by
    rw [agentOperations_merged hitems hlisted] at hoperation
    obtain ⟨item, hitem, -⟩ := mem_mergedOperations.mp hoperation
    exact (resolveEntries_paths hitems).2 _ hitem
  obtain ⟨rest, hrest, htext⟩ : ∃ rest, (rest = [] ∨ ∃ below, rest = '/' :: below) ∧
      request.toList = (agentEndpointPath proxy.listen_path).toList ++ rest := by
    rcases hrequest with rfl | ⟨below, hbelow⟩
    · exact ⟨[], .inl rfl, (List.append_nil _).symm⟩
    · refine ⟨'/' :: below, .inr ⟨below, rfl⟩, ?_⟩
      rw [← hbelow]
      simp
  rw [htext]
  exact mounted_not_endpoint hslash hcanonical hcovers hrest

end Shadowing

theorem routes_never_match_endpoint_marked : ∃ stamped,
    stampAgentDocument markedDocument ⟨"proxy", "/nexus/orders"⟩ markedDeployment = .ok stamped ∧
      ∀ route ∈ stamped.routes, matchesPath route.path_regex "/nexus/orders/mcp".toList = false := by
  obtain ⟨stamped, hstamped⟩ := exists_ok (x := stampAgentDocument markedDocument
    ⟨"proxy", "/nexus/orders"⟩ markedDeployment) (by decide +kernel)
  refine ⟨stamped, hstamped, fun route hroute => ?_⟩
  exact routes_never_match_endpoint marked_valid _ stamped hstamped route hroute
    "/nexus/orders/mcp" (.inl rfl)

end FerrumNexus.Agents
