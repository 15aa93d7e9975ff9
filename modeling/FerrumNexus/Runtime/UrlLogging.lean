import FerrumNexus.OpenApi.Documents
import FerrumNexus.Sequences.Scanning

/-!
# URLs in the log

`sanitizeUrlForLog` copies a URL span by span, and leaves out the values of
sensitive query parameters. It never parses the URL: a parameter is what stands
between two `&` after the first `?`, and its name what stands before its first
`=`. The result is the URL with those values replaced.
-/
namespace FerrumNexus.Runtime

open Sequences

def SENSITIVE_QUERY_PARAMS : List String :=
  ["token", "code", "state", "key", "secret", "signature", "access_token", "refresh_token",
    "api_key", "password"]

def REDACTED : List Char := "[Redacted]".toList

/-- Whether a parameter of this name is redacted. A name that cannot be decoded is. -/
def isSensitive (toLowerCase : List Char → List Char) (rawName : List Char) : Bool :=
  let decoded :=
    if '%' ∈ rawName then OpenApi.decodeURIComponent rawName.length rawName else some rawName
  match decoded with
  | some name => SENSITIVE_QUERY_PARAMS.contains (String.ofList (toLowerCase name))
  | none => true

/-- The variables of the loop. -/
structure Scan where
  result : List Char
  copiedThrough : ℕ
  start : ℕ

section Loop

variable (toLowerCase : List Char → List Char) (url : List Char)

/-- One parameter. -/
def turn (scan : Scan) : Scan :=
  let stop := (indexOf url '&' scan.start).getD url.length
  let parameter := slice url scan.start stop
  match indexOf parameter '=' 0 with
  | some equals =>
    if isSensitive toLowerCase (slice parameter 0 equals) then
      { result := scan.result ++ slice url scan.copiedThrough (scan.start + equals + 1) ++ REDACTED
        copiedThrough := stop
        start := stop + 1 }
    else { scan with start := stop + 1 }
  | none => { scan with start := stop + 1 }

/-- The loop: every turn moves `start`. -/
def turns : ℕ → Scan → Scan
  | 0, scan => scan
  | fuel + 1, scan => if scan.start < url.length then turns fuel (turn toLowerCase url scan) else scan

def sanitizeUrlForLog : List Char :=
  match indexOf url '?' 0 with
  | none => url
  | some queryStart =>
    let scan := turns toLowerCase url url.length ⟨[], 0, queryStart + 1⟩
    if scan.copiedThrough = 0 then url else scan.result ++ url.drop scan.copiedThrough

end Loop

/-! ## A query by its parameters -/

/-- A parameter as it is logged. -/
def redacted (toLowerCase : List Char → List Char) (parameter : List Char) : List Char :=
  match indexOf parameter '=' 0 with
  | some equals =>
    if isSensitive toLowerCase (parameter.take equals) then parameter.take (equals + 1) ++ REDACTED
    else parameter
  | none => parameter

/-- A query as it is logged. -/
def redactedQuery (toLowerCase : List Char → List Char) (query : List Char) : List Char :=
  ['&'].intercalate ((query.splitOn '&').map (redacted toLowerCase))

section Parameters

variable {toLowerCase : List Char → List Char}

theorem redacted_of_no_equals {parameter : List Char} (h : '=' ∉ parameter) :
    redacted toLowerCase parameter = parameter := by
  rw [redacted, indexOf_eq_none (by simpa using h)]

theorem redacted_of_name {name : List Char} (h : '=' ∉ name) (value : List Char) :
    redacted toLowerCase (name ++ '=' :: value) =
      if isSensitive toLowerCase name then name ++ '=' :: REDACTED else name ++ '=' :: value := by
  have hindex : indexOf (name ++ '=' :: value) '=' 0 = some name.length := by
    rw [indexOf_of_drop List.drop_zero h, Nat.zero_add]
  rw [redacted, hindex]
  simp only [List.take_left]
  split
  · rw [List.take_append]
    simp
  · rfl

theorem redactedQuery_last {parameter : List Char} (h : '&' ∉ parameter) :
    redactedQuery toLowerCase parameter = redacted toLowerCase parameter := by
  rw [redactedQuery, List.splitOn_eq_singleton h]
  simp

theorem redactedQuery_cons {parameter : List Char} (h : '&' ∉ parameter) (rest : List Char) :
    redactedQuery toLowerCase (parameter ++ '&' :: rest) =
      redacted toLowerCase parameter ++ '&' :: redactedQuery toLowerCase rest := by
  have hne : (rest.splitOn '&').map (redacted toLowerCase) ≠ [] := by
    simp
  rw [redactedQuery, List.splitOn_append_cons_self_of_not_mem h, List.map_cons,
    List.intercalate_cons_of_ne_nil hne, redactedQuery]
  simp

theorem redactedQuery_intercalate {parameters : List (List Char)}
    (h : ∀ parameter ∈ parameters, '&' ∉ parameter) (hne : parameters ≠ []) :
    redactedQuery toLowerCase (['&'].intercalate parameters) =
      ['&'].intercalate (parameters.map (redacted toLowerCase)) := by
  rw [redactedQuery, List.splitOn_intercalate '&' h hne]

end Parameters

/-! ## The loop copies the query -/

section Copying

variable {toLowerCase : List Char → List Char} {url : List Char}

/-- What the loop has to show for the part it has read. -/
def Scan.written (scan : Scan) (url : List Char) : List Char :=
  scan.result ++ slice url scan.copiedThrough scan.start

/-- What holds at the head of the loop. -/
structure Scan.Valid (scan : Scan) : Prop where
  behind : scan.copiedThrough ≤ scan.start
  fresh : scan.copiedThrough = 0 → scan.result = []

def Scan.finish (scan : Scan) (url : List Char) : List Char :=
  scan.result ++ url.drop scan.copiedThrough

theorem Scan.finish_eq {scan : Scan} (hend : url.length ≤ scan.start) :
    scan.finish url = scan.written url := by
  rw [Scan.finish, Scan.written, slice, List.take_of_length_le hend]

/-- The parameter a turn reads. -/
theorem stop_eq {start : ℕ} {parameter rest : List Char} (hstart : start ≤ url.length)
    (hparameter : '&' ∉ parameter) (hdrop : url.drop start = parameter ++ rest)
    (hrest : rest = [] ∨ ∃ after, rest = '&' :: after) :
    (indexOf url '&' start).getD url.length = start + parameter.length := by
  rcases hrest with rfl | ⟨after, rfl⟩
  · rw [List.append_nil] at hdrop
    have hlength := congrArg List.length hdrop
    rw [List.length_drop] at hlength
    rw [indexOf_eq_none (hdrop ▸ hparameter), Option.getD_none]
    omega
  · rw [indexOf_of_drop hdrop hparameter, Option.getD_some]

/-- A turn writes its parameter, and the `&` behind it where there is one. -/
theorem turn_spec {scan : Scan} (h : scan.Valid) (hstart : scan.start ≤ url.length)
    {parameter rest : List Char} (hparameter : '&' ∉ parameter)
    (hdrop : url.drop scan.start = parameter ++ rest)
    (hrest : rest = [] ∨ ∃ after, rest = '&' :: after) :
    (turn toLowerCase url scan).Valid ∧
      (turn toLowerCase url scan).start = scan.start + parameter.length + 1 ∧
      (turn toLowerCase url scan).written url =
        scan.written url ++ redacted toLowerCase parameter ++ rest.take 1 := by
  have hstop := stop_eq hstart hparameter hdrop hrest
  have hslice : slice url scan.start (scan.start + parameter.length) = parameter :=
    slice_of_drop hdrop
  have hend : slice url (scan.start + parameter.length) (scan.start + parameter.length + 1) =
      rest.take 1 := by
    rw [slice_eq_take, drop_of_drop hdrop]
  -- A parameter that is kept only moves `start`.
  have hkept (scan' : Scan) (heq : scan' = { scan with start := scan.start + parameter.length + 1 })
      (hself : redacted toLowerCase parameter = parameter) : scan'.Valid ∧
        scan'.start = scan.start + parameter.length + 1 ∧ scan'.written url =
          scan.written url ++ redacted toLowerCase parameter ++ rest.take 1 := by
    subst heq
    have hbehind := h.behind
    have hahead : scan.copiedThrough ≤ scan.start + parameter.length + 1 := by omega
    have hspan : slice url scan.copiedThrough (scan.start + parameter.length + 1) =
        slice url scan.copiedThrough scan.start ++ (parameter ++ rest.take 1) := by
      have hread : slice url scan.start (scan.start + parameter.length + 1) =
          parameter ++ rest.take 1 := by
        rw [Nat.add_assoc, slice_eq_take, hdrop, List.take_append]
        simp
      rw [← hread, slice_append hbehind (by omega)]
    refine ⟨⟨hahead, h.fresh⟩, rfl, ?_⟩
    rw [hself, Scan.written, Scan.written, hspan]
    simp only [List.append_assoc]
  by_cases hequals : '=' ∈ parameter
  · obtain ⟨name, value, hcut, hname⟩ := cut_first hequals
    have hindex : indexOf parameter '=' 0 = some name.length := by
      rw [indexOf_of_drop (by rw [List.drop_zero, hcut]) hname, Nat.zero_add]
    have hsliceName : slice parameter 0 name.length = name := by
      rw [hcut, slice, List.take_left, List.drop_zero]
    have hredacted := @redacted_of_name toLowerCase _ hname value
    rw [← hcut] at hredacted
    by_cases hsensitive : isSensitive toLowerCase name
    · rw [if_pos hsensitive] at hredacted
      have hturn : turn toLowerCase url scan =
          ⟨scan.result ++ slice url scan.copiedThrough (scan.start + name.length + 1) ++ REDACTED,
            scan.start + parameter.length, scan.start + parameter.length + 1⟩ := by
        simp only [turn, hstop, hslice, hindex, hsliceName, hsensitive, if_true]
      have hspan : slice url scan.start (scan.start + name.length + 1) = name ++ ['='] := by
        rw [Nat.add_assoc, slice_eq_take, hdrop, hcut, List.append_assoc, List.take_append]
        simp
      have hcopied : slice url scan.copiedThrough (scan.start + name.length + 1) =
          slice url scan.copiedThrough scan.start ++ (name ++ ['=']) := by
        rw [← hspan, slice_append h.behind (by omega)]
      have hnonempty : 0 < parameter.length := List.length_pos_of_mem hequals
      rw [hturn]
      refine ⟨⟨Nat.le_succ _, fun hzero => ?_⟩, rfl, ?_⟩
      · simp only at hzero
        omega
      · rw [Scan.written, Scan.written, hend, hredacted, hcopied]
        simp only [List.append_assoc, List.singleton_append]
    · rw [if_neg hsensitive] at hredacted
      apply hkept _ _ hredacted
      simp only [turn, hstop, hslice, hindex, hsliceName, hsensitive]
      rfl
  · apply hkept _ _ (redacted_of_no_equals hequals)
    have hindex : indexOf parameter '=' 0 = none := indexOf_eq_none (by simpa using hequals)
    simp only [turn, hstop, hslice, hindex]

/-- The loop leaves the query with the values replaced. -/
theorem turns_spec {fuel : ℕ} {scan : Scan} (h : scan.Valid) (hstart : scan.start ≤ url.length)
    (hfuel : url.length ≤ scan.start + fuel) :
    (turns toLowerCase url fuel scan).Valid ∧
      (turns toLowerCase url fuel scan).finish url =
        scan.written url ++ redactedQuery toLowerCase (url.drop scan.start) := by
  induction fuel generalizing scan with
  | zero =>
    have hend : url.length ≤ scan.start := by omega
    have hnil : redactedQuery toLowerCase ([] : List Char) = [] := by
      rw [redactedQuery_last List.not_mem_nil, redacted_of_no_equals List.not_mem_nil]
    rw [turns, Scan.finish_eq hend, List.drop_eq_nil_of_le hend, hnil, List.append_nil]
    exact ⟨h, rfl⟩
  | succ fuel ih =>
    rw [turns]
    by_cases hmore : scan.start < url.length
    · rw [if_pos hmore]
      by_cases hampersand : '&' ∈ url.drop scan.start
      · obtain ⟨parameter, rest, hcut, hparameter⟩ := cut_first hampersand
        obtain ⟨hvalid, hnext, hwritten⟩ := @turn_spec toLowerCase url scan h hstart
          parameter ('&' :: rest) hparameter hcut (Or.inr ⟨rest, rfl⟩)
        have hlength := congrArg List.length hcut
        rw [List.length_drop, List.length_append, List.length_cons] at hlength
        obtain ⟨hvalid', hfinish⟩ := ih hvalid (by omega) (by omega)
        have hrest : url.drop (scan.start + parameter.length + 1) = rest := by
          rw [← List.drop_drop, drop_of_drop hcut, List.drop_one, List.tail_cons]
        refine ⟨hvalid', ?_⟩
        rw [hfinish, hwritten, hnext, hrest, hcut, redactedQuery_cons hparameter]
        simp
      · have hcut : url.drop scan.start = url.drop scan.start ++ [] := (List.append_nil _).symm
        obtain ⟨hvalid, hnext, hwritten⟩ := @turn_spec toLowerCase url scan h hstart
          _ [] hampersand hcut (Or.inl rfl)
        have hend : url.length < (turn toLowerCase url scan).start := by
          rw [hnext, List.length_drop]
          omega
        have hstop : turns toLowerCase url fuel (turn toLowerCase url scan) =
            turn toLowerCase url scan := by
          cases fuel with
          | zero => rfl
          | succ fuel => rw [turns, if_neg (by omega)]
        rw [hstop, Scan.finish_eq hend.le, hwritten, redactedQuery_last hampersand]
        refine ⟨hvalid, ?_⟩
        simp
    · have hend : url.length ≤ scan.start := by omega
      have hnil : redactedQuery toLowerCase ([] : List Char) = [] := by
        rw [redactedQuery_last List.not_mem_nil, redacted_of_no_equals List.not_mem_nil]
      rw [if_neg hmore, Scan.finish_eq hend, List.drop_eq_nil_of_le hend, hnil, List.append_nil]
      exact ⟨h, rfl⟩

theorem sanitize_of_no_query (h : '?' ∉ url) : sanitizeUrlForLog toLowerCase url = url := by
  rw [sanitizeUrlForLog, indexOf_eq_none (by simpa using h)]

/-- The path, and the query with the values replaced. -/
theorem sanitize_of_query {path : List Char} (h : '?' ∉ path) (query : List Char) :
    sanitizeUrlForLog toLowerCase (path ++ '?' :: query) =
      path ++ '?' :: redactedQuery toLowerCase query := by
  have hindex : indexOf (path ++ '?' :: query) '?' 0 = some path.length := by
    rw [indexOf_of_drop List.drop_zero h, Nat.zero_add]
  have hquery : (path ++ '?' :: query).drop (path.length + 1) = query := by
    rw [← List.drop_drop, List.drop_left, List.drop_one, List.tail_cons]
  have hpath : (path ++ '?' :: query).take (path.length + 1) = path ++ ['?'] := by
    rw [List.take_append]
    simp
  have hfirst : Scan.Valid ⟨[], 0, path.length + 1⟩ := ⟨Nat.zero_le _, fun _ => rfl⟩
  obtain ⟨hvalid, hfinish⟩ := @turns_spec toLowerCase (path ++ '?' :: query)
    (path ++ '?' :: query).length _ hfirst (by simp) (by omega)
  rw [hquery, Scan.written, slice, hpath] at hfinish
  simp only [List.nil_append, List.drop_zero, List.append_assoc, List.singleton_append] at hfinish
  rw [sanitizeUrlForLog, hindex]
  simp only
  split
  · rename_i hzero
    rw [Scan.finish, hvalid.fresh hzero, hzero] at hfinish
    exact hfinish
  · exact hfinish

end Copying

/-! ## What is kept, and what is not -/

section Secrets

variable {toLowerCase : List Char → List Char}

/-- Only a value of a sensitive parameter is replaced. -/
theorem redacted_spec (parameter : List Char) :
    redacted toLowerCase parameter = parameter ∨ ∃ name value, '=' ∉ name ∧
      parameter = name ++ '=' :: value ∧ isSensitive toLowerCase name = true ∧
      redacted toLowerCase parameter = name ++ '=' :: REDACTED := by
  by_cases hequals : '=' ∈ parameter
  · obtain ⟨name, value, rfl, hname⟩ := cut_first hequals
    rw [redacted_of_name hname]
    by_cases hsensitive : isSensitive toLowerCase name = true
    · exact Or.inr ⟨name, value, hname, rfl, hsensitive, if_pos hsensitive⟩
    · exact Or.inl (if_neg hsensitive)
  · exact Or.inl (redacted_of_no_equals hequals)

theorem redacted_redacted (parameter : List Char) :
    redacted toLowerCase (redacted toLowerCase parameter) = redacted toLowerCase parameter := by
  rcases @redacted_spec toLowerCase parameter with hself | hvalue
  · rw [hself, hself]
  · obtain ⟨name, value, hname, rfl, hsensitive, hredacted⟩ := hvalue
    rw [hredacted, redacted_of_name hname, if_pos hsensitive]

theorem ampersand_not_mem_redacted {parameter : List Char} (h : '&' ∉ parameter) :
    '&' ∉ redacted toLowerCase parameter := by
  rcases @redacted_spec toLowerCase parameter with hself | hvalue
  · rwa [hself]
  · obtain ⟨name, value, hname, rfl, hsensitive, hredacted⟩ := hvalue
    rw [List.mem_append, not_or] at h
    rw [hredacted, List.mem_append, not_or, List.mem_cons, not_or]
    exact ⟨h.1, by decide, by decide⟩

theorem redactedQuery_redactedQuery (query : List Char) :
    redactedQuery toLowerCase (redactedQuery toLowerCase query) =
      redactedQuery toLowerCase query := by
  have hparts : ∀ parameter ∈ query.splitOn '&', '&' ∉ parameter := fun parameter hmem =>
    not_mem_of_mem_splitOn hmem
  have hne : (query.splitOn '&').map (redacted toLowerCase) ≠ [] := by simp
  have hredacted : ∀ parameter ∈ (query.splitOn '&').map (redacted toLowerCase),
      '&' ∉ parameter := by
    intro parameter hmem
    obtain ⟨part, hpart, rfl⟩ := List.mem_map.mp hmem
    exact ampersand_not_mem_redacted (hparts part hpart)
  have hsame : redacted toLowerCase ∘ redacted toLowerCase = redacted toLowerCase :=
    funext redacted_redacted
  conv_lhs => rw [redactedQuery.eq_def _ query]
  rw [redactedQuery_intercalate hredacted hne, List.map_map, hsame, redactedQuery]

/-- Two parameters that are the same but for the value, if it is a secret. -/
def SameButValue (toLowerCase : List Char → List Char) (first second : List Char) : Prop :=
  first = second ∨ ∃ name value value', '=' ∉ name ∧ isSensitive toLowerCase name = true ∧
    first = name ++ '=' :: value ∧ second = name ++ '=' :: value'

theorem SameButValue.redacted_eq {first second : List Char}
    (h : SameButValue toLowerCase first second) :
    redacted toLowerCase first = redacted toLowerCase second := by
  rcases h with rfl | ⟨name, value, value', hname, hsensitive, rfl, rfl⟩
  · rfl
  · rw [redacted_of_name hname, redacted_of_name hname, if_pos hsensitive, if_pos hsensitive]

/-- Two URLs that are the same but for the values of sensitive query parameters. -/
def SameButSecrets (toLowerCase : List Char → List Char) (first second : List Char) : Prop :=
  first = second ∨ ∃ path query query', '?' ∉ path ∧
    first = path ++ '?' :: query ∧ second = path ++ '?' :: query' ∧
    List.Forall₂ (SameButValue toLowerCase) (query.splitOn '&') (query'.splitOn '&')

theorem SameButSecrets.sanitize_eq {first second : List Char}
    (h : SameButSecrets toLowerCase first second) :
    sanitizeUrlForLog toLowerCase first = sanitizeUrlForLog toLowerCase second := by
  rcases h with rfl | ⟨path, query, query', hpath, rfl, rfl, hparameters⟩
  · rfl
  · have hsame : (query.splitOn '&').map (redacted toLowerCase) =
        (query'.splitOn '&').map (redacted toLowerCase) := by
      rw [← List.forall₂_eq_eq_eq, List.forall₂_map_left_iff, List.forall₂_map_right_iff]
      exact hparameters.imp fun _ _ hvalue => hvalue.redacted_eq
    rw [sanitize_of_query hpath, sanitize_of_query hpath, redactedQuery, redactedQuery, hsame]

theorem sanitize_sanitize (url : List Char) :
    sanitizeUrlForLog toLowerCase (sanitizeUrlForLog toLowerCase url) =
      sanitizeUrlForLog toLowerCase url := by
  by_cases hquery : '?' ∈ url
  · obtain ⟨path, query, rfl, hpath⟩ := cut_first hquery
    rw [sanitize_of_query hpath, sanitize_of_query hpath, redactedQuery_redactedQuery]
  · rw [sanitize_of_no_query hquery, sanitize_of_no_query hquery]

end Secrets

/-- A URL without a query is logged as it is, and one with a query has its sensitive values
replaced and nothing else; so two URLs that differ in such values alone are logged the same, and a
URL that was sanitized stays as it is. -/
theorem logged_urls_carry_no_secrets (toLowerCase : List Char → List Char) :
    (∀ url, '?' ∉ url → sanitizeUrlForLog toLowerCase url = url) ∧
    (∀ path parameters, '?' ∉ path → parameters ≠ [] → (∀ p ∈ parameters, '&' ∉ p) →
      sanitizeUrlForLog toLowerCase (path ++ '?' :: ['&'].intercalate parameters) =
        path ++ '?' :: ['&'].intercalate (parameters.map (redacted toLowerCase))) ∧
    (∀ parameter, '=' ∉ parameter → redacted toLowerCase parameter = parameter) ∧
    (∀ name value, '=' ∉ name → redacted toLowerCase (name ++ '=' :: value) =
      if isSensitive toLowerCase name then name ++ '=' :: REDACTED else name ++ '=' :: value) ∧
    (∀ first second, SameButSecrets toLowerCase first second →
      sanitizeUrlForLog toLowerCase first = sanitizeUrlForLog toLowerCase second) ∧
    ∀ url, sanitizeUrlForLog toLowerCase (sanitizeUrlForLog toLowerCase url) =
      sanitizeUrlForLog toLowerCase url := by
  refine ⟨fun url => sanitize_of_no_query, ?_, fun parameter => redacted_of_no_equals,
    fun name value hname => redacted_of_name hname value, fun first second h => h.sanitize_eq,
    sanitize_sanitize⟩
  intro path parameters hpath hne hparameters
  rw [sanitize_of_query hpath, redactedQuery_intercalate hparameters hne]

/-- Two reset links, whose tokens differ, are logged the same. -/
theorem logged_reset_links :
    sanitizeUrlForLog (List.map Char.toLower) "/reset?limit=20&%74oken=a=b".toList =
      sanitizeUrlForLog (List.map Char.toLower) "/reset?limit=20&%74oken=".toList := by
  apply (logged_urls_carry_no_secrets (List.map Char.toLower)).2.2.2.2.1
  have hlimit : "limit=20&%74oken=a=b".toList.splitOn '&' =
      ["limit=20".toList, "%74oken=a=b".toList] := by decide
  have hlimit' : "limit=20&%74oken=".toList.splitOn '&' =
      ["limit=20".toList, "%74oken=".toList] := by decide
  refine Or.inr ⟨"/reset".toList, "limit=20&%74oken=a=b".toList, "limit=20&%74oken=".toList,
    by decide, by decide, by decide, ?_⟩
  rw [hlimit, hlimit']
  refine .cons (Or.inl rfl) (.cons (Or.inr ?_) .nil)
  exact ⟨"%74oken".toList, "a=b".toList, [], by decide, by decide, by decide, by decide⟩

end FerrumNexus.Runtime
