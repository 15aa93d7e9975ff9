import FerrumNexus.OpenApi.References

/-!
# Path Items through their references

A Path Item may be written inline or reached through a chain of references, and
what is written beside a reference overlays what the reference names. The agent
enumerator reads such chains with a memo, the comparison of revisions with a
memo and a set of nodes that can never be followed, and the stamped document
holds merged copies. All three are the same reading of the document.
-/
namespace FerrumNexus.OpenApi

def PATH_ITEM_REF_BASES : List String := ["#/paths/", "#/components/pathItems/", "#/webhooks/"]

def MAX_PATH_ITEM_REF_HOPS : ℕ := 32

/-- `OPENAPI_OPERATION_METHODS`. -/
inductive OperationMethod
  | get
  | put
  | post
  | delete
  | options
  | head
  | patch
  | trace
  deriving DecidableEq, Repr

def OperationMethod.key : OperationMethod → String
  | get => "get"
  | put => "put"
  | post => "post"
  | delete => "delete"
  | options => "options"
  | head => "head"
  | patch => "patch"
  | trace => "trace"

def OPENAPI_OPERATION_METHODS : List OperationMethod :=
  [.get, .put, .post, .delete, .options, .head, .patch, .trace]

/-- The references followed, outermost first, and what the innermost names. -/
structure AgentPathItem (ι : Type) where
  chain : List ι
  target : ι
  deriving DecidableEq

/-- Why a chain is refused: its reference, or what the reference names. -/
inductive PathItemError
  | needsAcyclicReference
  | cannotResolve
  deriving DecidableEq, Repr

variable {ι : Type}

/-- `agentPathItemMember`: the outermost reference that sets it wins. -/
def agentPathItemMember (doc : Document ι) (item : AgentPathItem ι) (key : String) :
    Option (Value ι) :=
  match item.chain.find? fun sibling => key != "$ref" && (doc.own sibling key).isSome with
  | some sibling => doc.own sibling key
  | none => doc.own item.target key

/-- The reference a Path Item may be followed by. -/
def pathItemRef (ref : Value ι) : Option String :=
  match ref with
  | .string ref => if PATH_ITEM_REF_BASES.any (·.toList.isPrefixOf ref.toList) then some ref else none
  | _ => none

section Resolver

variable (doc : Document ι)

abbrev PathItemMemo (ι : Type) := ι → Option (AgentPathItem ι)

/-- The loop of `resolveAgentPathItem` with `hops` references left to follow.
The chain is kept latest first. -/
def followPathItem (memo : PathItemMemo ι) (hops : ℕ) (chain : List ι) (seen : List String)
    (item : ι) : Except PathItemError (List ι × ι × Option (AgentPathItem ι)) :=
  match memo item, doc.own item "$ref" with
  | some known, _ => .ok (chain, item, some known)
  | none, none => .ok (chain, item, none)
  | none, some value =>
    match (pathItemRef value).filter (· ∉ seen), hops with
    | none, _ => .error .needsAcyclicReference
    | some _, 0 => .error .needsAcyclicReference
    | some ref, hops + 1 =>
      match doc.record? (doc.walkPointer ref) with
      | none => .error .cannotResolve
      | some target => followPathItem memo hops (item :: chain) (ref :: seen) target

variable [DecidableEq ι]

/-- Remember every node of a chain, the latest first. -/
def rememberChain (memo : PathItemMemo ι) (resolved : AgentPathItem ι) :
    List ι → AgentPathItem ι × PathItemMemo ι
  | [] => (resolved, memo)
  | node :: chain =>
    let resolved := ⟨node :: resolved.chain, resolved.target⟩
    rememberChain (Function.update memo node (some resolved)) resolved chain

/-- `resolveAgentPathItem`, with the memo afterwards. -/
def resolveAgentPathItem (memo : PathItemMemo ι) (value : ι) :
    Except PathItemError (AgentPathItem ι × PathItemMemo ι) := do
  let (chain, item, known) ← followPathItem doc memo MAX_PATH_ITEM_REF_HOPS [] [] value
  let tail := known.getD ⟨[], item⟩
  if MAX_PATH_ITEM_REF_HOPS < chain.length + tail.chain.length then .error .needsAcyclicReference
  else
    let memo := if known.isNone then Function.update memo item (some tail) else memo
    .ok (rememberChain memo tail chain)

/-- Without a memo. -/
def resolveAlone (value : ι) : Except PathItemError (AgentPathItem ι) :=
  Prod.fst <$> resolveAgentPathItem doc (fun _ => none) value

/-! ## The reader of `spec-changes` -/

/-- What `createPathItemReader` holds between its reads. -/
structure PathItemReader (ι : Type) where
  resolved : PathItemMemo ι
  broken : ι → Bool
  byPath : String → Option (Option (AgentPathItem ι))

def createPathItemReader : PathItemReader ι := ⟨fun _ => none, fun _ => false, fun _ => none⟩

/-- What one walk of the reader comes to. `intrinsic` is set where the chain can
never be followed, and `charged` are the pointers paid for. -/
structure ReaderWalk (ι : Type) where
  chain : List ι
  tail : Option (AgentPathItem ι)
  intrinsic : Bool
  charged : List ℕ

/-- The loop of the reader's `resolve`. -/
def readPathItem (reader : PathItemReader ι) (hops : ℕ) (chain : List ι) (seen : List String)
    (charged : List ℕ) (node : ι) : ReaderWalk ι :=
  match reader.resolved node, reader.broken node, doc.own node "$ref" with
  | some tail, _, _ => ⟨chain, some tail, false, charged⟩
  | none, true, _ => ⟨chain, none, true, charged⟩
  | none, false, none => ⟨chain, some ⟨[], node⟩, false, charged⟩
  | none, false, some value =>
    match (pathItemRef value).filter (· ∉ seen), hops with
    | none, _ => ⟨node :: chain, none, true, charged⟩
    | some _, 0 => ⟨chain, none, false, charged⟩
    | some ref, hops + 1 =>
      let charged := charged ++ [Platform.utf16Length ref + 1]
      match doc.record? (doc.walkPointer ref) with
      | none => ⟨node :: chain, none, true, charged⟩
      | some target => readPathItem reader hops (node :: chain) (ref :: seen) charged target

/-- `resolve` of the reader, with what it charges. -/
def PathItemReader.resolve (reader : PathItemReader ι) (raw : ι) :
    Option (AgentPathItem ι) × PathItemReader ι × List ℕ :=
  let walk := readPathItem doc reader MAX_PATH_ITEM_REF_HOPS [] [] [] raw
  match walk.tail.filter fun tail => walk.chain.length + tail.chain.length ≤ MAX_PATH_ITEM_REF_HOPS with
  | none =>
    let broken := if walk.intrinsic then fun node => reader.broken node || walk.chain.contains node
      else reader.broken
    (none, { reader with broken := broken }, walk.charged)
  | some tail =>
    let memo := if tail.chain = [] then Function.update reader.resolved tail.target (some tail)
      else reader.resolved
    let (item, memo) := rememberChain memo tail walk.chain
    (some item, { reader with resolved := memo }, walk.charged)

/-- The raw Path Item of a path, if it is an object. -/
def pathValue (path : String) : Option ι :=
  (doc.record? (some doc.root)).bind fun root =>
    (doc.record? (doc.own root "paths")).bind fun paths => doc.record? (doc.own paths path)

/-- One read of a path. -/
def PathItemReader.read (reader : PathItemReader ι) (path : String) :
    Option (AgentPathItem ι) × PathItemReader ι × List ℕ :=
  match reader.byPath path with
  | some known => (known, reader, [])
  | none =>
    let (item, reader, charged) :=
      match pathValue doc path with
      | none => (none, reader, [])
      | some raw => reader.resolve doc raw
    (item, { reader with byPath := Function.update reader.byPath path (some item) }, charged)

end Resolver

/-! ## Merged copies -/

theorem get_isNone_iff {members : Members ι} {key : String} :
    (members.get key).isNone ↔ key ∉ members.entries.map Prod.fst := by
  simp only [Members.get, Option.isNone_map, Option.isNone_iff_eq_none, List.find?_eq_none,
    List.mem_map, not_exists, not_and, beq_iff_eq]

/-- `{ ...members, ...overlay }`. -/
def Members.overlay (members overlay : Members ι) : Members ι where
  entries := members.entries.map (fun entry => (entry.1, (overlay.get entry.1).getD entry.2)) ++
    overlay.entries.filter fun entry => (members.get entry.1).isNone
  distinct := by
    rw [List.map_append, List.map_map]
    refine List.nodup_append.mpr ⟨members.distinct, ?_, ?_⟩
    · exact overlay.distinct.sublist (List.filter_sublist.map _)
    · rintro key hkey _ hkey' rfl
      obtain ⟨entry, hentry, rfl⟩ := List.mem_map.mp hkey'
      exact get_isNone_iff.mp (List.mem_filter.mp hentry).2 hkey

/-- `const { $ref: _ref, ...overlay } = sibling`. -/
def Members.without (members : Members ι) (key : String) : Members ι where
  entries := members.entries.filter fun entry => entry.1 != key
  distinct := members.distinct.sublist (List.filter_sublist.map _)

/-- The copy `agentPathItems` makes of a resolved Path Item. -/
def mergePathItem (doc : Document ι) (item : AgentPathItem ι) : Members ι :=
  item.chain.reverse.foldl
    (fun merged sibling => merged.overlay ((doc.members sibling).without "$ref"))
    (doc.members item.target)

/-! ## Every Path Item of a document -/

section Entries

variable (doc : Document ι) [DecidableEq ι]

/-- `document.paths`, where it is an object. -/
def pathEntries : List (String × Value ι) :=
  match (doc.record? (some doc.root)).bind fun root => doc.record? (doc.own root "paths") with
  | none => []
  | some paths => (doc.members paths).entries

/-- What `agentPathItemEntries` throws: the path it could not follow. -/
structure PathItemFailure where
  path : String
  error : PathItemError
  deriving DecidableEq, Repr

/-- The loop of `agentPathItemEntries`. -/
def resolveEntries : PathItemMemo ι → List (String × Value ι) →
    Except PathItemFailure (List (String × AgentPathItem ι))
  | _, [] => .ok []
  | memo, (path, value) :: rest =>
    match (doc.record? (some value)).filter fun _ => path.toList.head? = some '/' with
    | none => resolveEntries memo rest
    | some raw =>
      match resolveAgentPathItem doc memo raw with
      | .error error => .error ⟨path, error⟩
      | .ok (item, memo) => (resolveEntries memo rest).map fun items => (path, item) :: items

def agentPathItemEntries : Except PathItemFailure (List (String × AgentPathItem ι)) :=
  resolveEntries doc (fun _ => none) (pathEntries doc)

def agentPathItems : Except PathItemFailure (List (String × Members ι)) :=
  (agentPathItemEntries doc).map fun items =>
    items.map fun entry => (entry.1, mergePathItem doc entry.2)

/-- An operation `agentOperations` lists, less the hints it offers a browser. -/
structure ListedOperation (ι : Type) where
  path : String
  method : OperationMethod
  operation : ι
  deriving DecidableEq

/-- The operations of one Path Item, whose members are read by `get`. -/
def operationsOf (path : String) (get : String → Option (Value ι)) : List (ListedOperation ι) :=
  OPENAPI_OPERATION_METHODS.filterMap fun method =>
    (doc.record? (get method.key)).map fun operation => ⟨path, method, operation⟩

inductive AgentOperationsError
  | pathItem (failure : PathItemFailure)
  | tooMany (maxOperations : ℕ)
  deriving DecidableEq, Repr

def agentOperations (maxOperations : Option ℕ) :
    Except AgentOperationsError (List (ListedOperation ι)) :=
  match agentPathItemEntries doc with
  | .error failure => .error (.pathItem failure)
  | .ok items =>
    let operations := items.flatMap fun entry =>
      operationsOf doc entry.1 (agentPathItemMember doc entry.2)
    match maxOperations.filter (· < operations.length) with
    | some maxOperations => .error (.tooMany maxOperations)
    | none => .ok operations

end Entries

/-! ## What a chain resolves to -/

variable {doc : Document ι}

variable (doc) in
/-- The chain of references from a node, and the node without one at its end. -/
inductive Resolves : ι → List ι → ι → Prop
  | here {item : ι} (h : doc.own item "$ref" = none) : Resolves item [] item
  | next {item next target : ι} {value : Value ι} {ref : String} {chain : List ι}
      (hvalue : doc.own item "$ref" = some value) (href : pathItemRef value = some ref)
      (hnext : doc.record? (doc.walkPointer ref) = some next) (h : Resolves next chain target) :
      Resolves item (item :: chain) target

variable {before chain : List ι} {item target : ι} {seen : List String} {memo : PathItemMemo ι}

theorem Resolves.unique {target' : ι} {chain' : List ι}
    (h : Resolves doc item chain target) (h' : Resolves doc item chain' target') :
    chain = chain' ∧ target = target' := by
  induction h generalizing chain' with
  | here hnone =>
    cases h' with
    | here => exact ⟨rfl, rfl⟩
    | next hvalue =>
      rw [hnone] at hvalue
      cases hvalue
  | next hvalue href hnext _ ih =>
    cases h' with
    | here hnone =>
      rw [hvalue] at hnone
      cases hnone
    | next hvalue' href' hnext' h' =>
      rw [hvalue, Option.some.injEq] at hvalue'
      subst hvalue'
      rw [href, Option.some.injEq] at href'
      subst href'
      rw [hnext, Option.some.injEq] at hnext'
      subst hnext'
      obtain ⟨rfl, rfl⟩ := ih h'
      exact ⟨rfl, rfl⟩

/-- Every node of a chain resolves to the rest of it. -/
theorem Resolves.suffix {node : ι} {rest : List ι}
    (h : Resolves doc item (before ++ node :: rest) target) :
    Resolves doc node (node :: rest) target := by
  induction before generalizing item with
  | nil =>
    cases h with
    | next hvalue href hnext h => exact .next hvalue href hnext h
  | cons first before ih =>
    cases h with
    | next _ _ _ h => exact ih h

theorem Resolves.target_end (h : Resolves doc item chain target) :
    doc.own target "$ref" = none := by
  induction h with
  | here hnone => exact hnone
  | next _ _ _ _ ih => exact ih

variable (doc) in
/-- No reference in `seen` leads on from a node with `n` references to go: a node
that has one has more of them. -/
def Ahead (seen : List String) (n : ℕ) : Prop :=
  ∀ ref ∈ seen, ∀ node value chain target, doc.own node "$ref" = some value →
    pathItemRef value = some ref → Resolves doc node chain target → n < chain.length

theorem Ahead.cons {next : ι} {ref : String} (h : Ahead doc seen (chain.length + 1))
    (hnext : doc.record? (doc.walkPointer ref) = some next) (hchain : Resolves doc next chain target) :
    Ahead doc (ref :: seen) chain.length := by
  intro ref' hmem node value' chain' target' hvalue' href' hnode
  rcases List.mem_cons.mp hmem with rfl | hmem
  · cases hnode with
    | here hnone =>
      rw [hvalue'] at hnone
      cases hnone
    | next hvalue'' href'' hnext'' h'' =>
      rw [hvalue', Option.some.injEq] at hvalue''
      subst hvalue''
      rw [href', Option.some.injEq] at href''
      subst href''
      rw [hnext, Option.some.injEq] at hnext''
      subst hnext''
      rw [(hchain.unique h'').1, List.length_cons]
      exact Nat.lt_succ_self _
  · have := h ref' hmem node value' chain' target' hvalue' href' hnode
    omega

theorem Ahead.not_mem {value : Value ι} {ref : String} (h : Ahead doc seen chain.length)
    (hvalue : doc.own item "$ref" = some value) (href : pathItemRef value = some ref)
    (hitem : Resolves doc item chain target) : ref ∉ seen :=
  fun hmem => lt_irrefl _ (h ref hmem item value chain target hvalue href hitem)

/-! ## Walks with a memo -/

variable (doc) in
/-- Every node of the memo has the chain it is remembered with. -/
def SoundMemo (memo : PathItemMemo ι) : Prop :=
  ∀ node item, memo node = some item → Resolves doc node item.chain item.target

theorem soundMemo_empty : SoundMemo doc fun _ => none := fun _ _ h => by cases h

/-- The walk of a chain that ends: to its end or to a node of the memo, unless
it is too long. -/
theorem followPathItem_resolves (hmemo : SoundMemo doc memo) (hops : ℕ) (before : List ι)
    (h : Resolves doc item chain target) (hahead : Ahead doc seen chain.length) :
    (∃ walked rest item' known, chain = walked ++ rest ∧
      followPathItem doc memo hops before seen item = .ok (walked.reverse ++ before, item', known) ∧
      known.getD ⟨[], item'⟩ = ⟨rest, target⟩ ∧ (known = none → item' = target)) ∨
    (hops < chain.length ∧
      followPathItem doc memo hops before seen item = .error .needsAcyclicReference) := by
  induction h generalizing hops before seen with
  | @here item hnone =>
    left
    cases hknown : memo item with
    | some known =>
      obtain ⟨hchain, htarget⟩ := (hmemo item known hknown).unique (.here hnone)
      refine ⟨[], [], item, some known, rfl, by simp [followPathItem, hknown], ?_, fun h => by cases h⟩
      cases known
      simp_all
    | none => exact ⟨[], [], item, none, rfl, by simp [followPathItem, hknown, hnone], rfl, fun _ => rfl⟩
  | @next item next target value ref chain hvalue href hnext hchain ih =>
    have hresolves := Resolves.next hvalue href hnext hchain
    cases hknown : memo item with
    | some known =>
      obtain ⟨hchain, htarget⟩ := (hmemo item known hknown).unique hresolves
      refine .inl ⟨[], item :: chain, item, some known, rfl, by simp [followPathItem, hknown], ?_,
        fun h => by cases h⟩
      cases known
      simp_all
    | none =>
      have hnew := hahead.not_mem hvalue href hresolves
      have hallowed : (pathItemRef value).filter (· ∉ seen) = some ref := by
        simp [href, hnew]
      cases hops with
      | zero =>
        refine .inr ⟨Nat.succ_pos _, ?_⟩
        rw [followPathItem, hknown, hvalue]
        simp only [hallowed]
      | succ hops =>
        have hstep : followPathItem doc memo (hops + 1) before seen item =
            followPathItem doc memo hops (item :: before) (ref :: seen) next := by
          rw [followPathItem, hknown, hvalue]
          simp only [hallowed, hnext]
        rcases ih hops (item :: before) (hahead.cons hnext hchain) with
          ⟨walked, rest, item', known, hsplit, hfollow, htail, hend⟩ | ⟨hlong, hfollow⟩
        · left
          refine ⟨item :: walked, rest, item', known, by rw [hsplit, List.cons_append], ?_, htail, hend⟩
          rw [hstep, hfollow, List.reverse_cons, List.append_assoc, List.singleton_append]
        · exact .inr ⟨Nat.succ_lt_succ hlong, hstep.trans hfollow⟩

theorem followPathItem_ref {hops : ℕ} {value : Value ι} (hknown : memo item = none)
    (hvalue : doc.own item "$ref" = some value) :
    followPathItem doc memo hops before seen item =
      match (pathItemRef value).filter (· ∉ seen), hops with
      | none, _ => .error .needsAcyclicReference
      | some _, 0 => .error .needsAcyclicReference
      | some ref, hops + 1 =>
        match doc.record? (doc.walkPointer ref) with
        | none => .error .cannotResolve
        | some target => followPathItem doc memo hops (item :: before) (ref :: seen) target := by
  rw [followPathItem, hknown, hvalue]

/-- The walk of a chain that does not end finds nothing in the memo. -/
theorem followPathItem_fails (hmemo : SoundMemo doc memo) (hops : ℕ) (before : List ι)
    (seen : List String) (h : ¬ ∃ chain target, Resolves doc item chain target) :
    ∃ error, followPathItem doc memo hops before seen item = .error error ∧
      followPathItem doc (fun _ => none) hops before seen item = .error error := by
  have hknown {item : ι} (h : ¬ ∃ chain target, Resolves doc item chain target) :
      memo item = none := by
    cases hknown : memo item with
    | none => rfl
    | some known => exact absurd ⟨_, _, hmemo item known hknown⟩ h
  induction hops generalizing before seen item with
  | zero =>
    cases hvalue : doc.own item "$ref" with
    | none => exact absurd ⟨[], item, .here hvalue⟩ h
    | some value =>
      rw [followPathItem_ref (hknown h) hvalue, followPathItem_ref rfl hvalue]
      cases (pathItemRef value).filter (· ∉ seen) with
      | none => exact ⟨_, rfl, rfl⟩
      | some ref => exact ⟨_, rfl, rfl⟩
  | succ hops ih =>
    cases hvalue : doc.own item "$ref" with
    | none => exact absurd ⟨[], item, .here hvalue⟩ h
    | some value =>
      rw [followPathItem_ref (hknown h) hvalue, followPathItem_ref rfl hvalue]
      cases hallowed : (pathItemRef value).filter (· ∉ seen) with
      | none => exact ⟨_, rfl, rfl⟩
      | some ref =>
        have href : pathItemRef value = some ref := (Option.filter_eq_some_iff.mp hallowed).1
        dsimp only
        cases hnext : doc.record? (doc.walkPointer ref) with
        | none => exact ⟨_, rfl, rfl⟩
        | some next =>
          refine ih _ _ fun hchain => h ?_
          obtain ⟨chain, target, hchain⟩ := hchain
          exact ⟨item :: chain, target, .next hvalue href hnext hchain⟩

section Memo

variable [DecidableEq ι] {memo : PathItemMemo ι} {item target value : ι} {before chain : List ι}
  {reader : PathItemReader ι}

/-- What is remembered along a chain. -/
theorem rememberChain_spec (hmemo : SoundMemo doc memo) {start : ι} {walked rest : List ι}
    (h : Resolves doc start (walked.reverse ++ rest) target) :
    (rememberChain memo ⟨rest, target⟩ walked).1 = ⟨walked.reverse ++ rest, target⟩ ∧
      SoundMemo doc (rememberChain memo ⟨rest, target⟩ walked).2 := by
  induction walked generalizing memo rest with
  | nil => exact ⟨rfl, hmemo⟩
  | cons node walked ih =>
    rw [List.reverse_cons, List.append_assoc, List.singleton_append] at h ⊢
    refine ih (fun node' item hitem => ?_) h
    by_cases hnode : node' = node
    · subst hnode
      rw [Function.update_self, Option.some.injEq] at hitem
      subst hitem
      exact h.suffix
    · rw [Function.update_of_ne hnode] at hitem
      exact hmemo node' item hitem

theorem SoundMemo.update (hmemo : SoundMemo doc memo) (h : doc.own target "$ref" = none) :
    SoundMemo doc (Function.update memo target (some ⟨[], target⟩)) := by
  intro node item hitem
  by_cases hnode : node = target
  · subst hnode
    rw [Function.update_self, Option.some.injEq] at hitem
    subst hitem
    exact .here h
  · rw [Function.update_of_ne hnode] at hitem
    exact hmemo node item hitem

/-- A chain that ends resolves if it is not too long, whatever is remembered. -/
theorem resolveAgentPathItem_resolves (hmemo : SoundMemo doc memo)
    (h : Resolves doc value chain target) :
    if chain.length ≤ MAX_PATH_ITEM_REF_HOPS then
      ∃ memo', resolveAgentPathItem doc memo value = .ok (⟨chain, target⟩, memo') ∧ SoundMemo doc memo'
    else resolveAgentPathItem doc memo value = .error .needsAcyclicReference := by
  have hahead : Ahead doc [] chain.length := fun _ hmem => by cases hmem
  rcases followPathItem_resolves hmemo MAX_PATH_ITEM_REF_HOPS [] h hahead with
    ⟨walked, rest, item, known, hsplit, hfollow, htail, hend⟩ | ⟨hlong, hfollow⟩
  · rw [List.append_nil] at hfollow
    have hlength : walked.reverse.length + rest.length = chain.length := by
      rw [hsplit, List.length_append, List.length_reverse]
    have hreverse : chain = walked.reverse.reverse ++ rest := by rw [List.reverse_reverse, hsplit]
    simp only [resolveAgentPathItem, hfollow, bind, Except.bind, htail, hlength]
    by_cases hle : chain.length ≤ MAX_PATH_ITEM_REF_HOPS
    · rw [if_pos hle, if_neg (not_lt.mpr hle)]
      have hmemo' : SoundMemo doc (if known.isNone then
          Function.update memo item (some ⟨rest, target⟩) else memo) := by
        cases known with
        | some known => exact hmemo
        | none =>
          obtain ⟨rfl, rfl⟩ : [] = rest ∧ item = target := by simpa using htail
          exact hmemo.update h.target_end
      rw [hreverse] at h
      obtain ⟨hitem, hsound⟩ := rememberChain_spec hmemo' h
      refine ⟨_, ?_, hsound⟩
      rw [← hreverse] at hitem
      rw [← hitem]
    · rw [if_neg hle, if_pos (not_le.mp hle)]
  · rw [if_neg (not_le.mpr hlong)]
    simp only [resolveAgentPathItem, hfollow, bind, Except.bind]

theorem resolveAgentPathItem_fails (hmemo : SoundMemo doc memo)
    (h : ¬ ∃ chain target, Resolves doc value chain target) :
    ∃ error, resolveAgentPathItem doc memo value = .error error ∧
      resolveAlone doc value = .error error := by
  obtain ⟨error, hfollow, halone⟩ :=
    followPathItem_fails hmemo MAX_PATH_ITEM_REF_HOPS [] [] h
  refine ⟨error, ?_, ?_⟩
  · simp only [resolveAgentPathItem, hfollow, bind, Except.bind]
  · simp only [resolveAlone, resolveAgentPathItem, halone, bind, Except.bind]
    rfl

/-- A resolution with a memo is one without. -/
theorem resolveAgentPathItem_spec (hmemo : SoundMemo doc memo) (value : ι) :
    Prod.fst <$> resolveAgentPathItem doc memo value = resolveAlone doc value ∧
      ∀ item memo', resolveAgentPathItem doc memo value = .ok (item, memo') →
        SoundMemo doc memo' ∧ Resolves doc value item.chain item.target := by
  by_cases h : ∃ chain target, Resolves doc value chain target
  · obtain ⟨chain, target, h⟩ := h
    have hmine := resolveAgentPathItem_resolves hmemo h
    have halone := resolveAgentPathItem_resolves soundMemo_empty h
    by_cases hle : chain.length ≤ MAX_PATH_ITEM_REF_HOPS
    · rw [if_pos hle] at hmine halone
      obtain ⟨memo₁, hmine, hsound⟩ := hmine
      obtain ⟨memo₂, halone, -⟩ := halone
      rw [resolveAlone, hmine, halone]
      refine ⟨rfl, fun item memo' h' => ?_⟩
      cases h'
      exact ⟨hsound, h⟩
    · rw [if_neg hle] at hmine halone
      rw [resolveAlone, hmine, halone]
      exact ⟨rfl, fun _ _ h' => by cases h'⟩
  · obtain ⟨error, hmine, halone⟩ := resolveAgentPathItem_fails hmemo h
    rw [hmine, halone]
    exact ⟨rfl, fun _ _ h' => by cases h'⟩

variable (doc) in
/-- The memo after some reads, of which those that fail leave it as it is. -/
def memoAfter (earlier : List ι) : PathItemMemo ι :=
  earlier.foldl (fun memo value =>
    match resolveAgentPathItem doc memo value with
    | .ok (_, memo) => memo
    | .error _ => memo) fun _ => none

theorem soundMemo_memoAfter (earlier : List ι) : SoundMemo doc (memoAfter doc earlier) := by
  refine List.foldlRecOn earlier _ soundMemo_empty fun memo hmemo value _ => ?_
  cases h : resolveAgentPathItem doc memo value with
  | error => exact hmemo
  | ok result => exact ((resolveAgentPathItem_spec hmemo value).2 result.1 result.2 h).1

/-! ## Walks of the reader -/

variable (doc) in
/-- What is remembered is so, and what is broken has no end. -/
structure SoundReader (reader : PathItemReader ι) : Prop where
  resolved : SoundMemo doc reader.resolved
  broken : ∀ node, reader.broken node = true → ¬ ∃ chain target, Resolves doc node chain target
  byPath : ∀ path known, reader.byPath path = some known →
    known = (pathValue doc path).bind fun raw => (resolveAlone doc raw).toOption

theorem soundReader_create : SoundReader doc createPathItemReader where
  resolved := soundMemo_empty
  broken _ h := by cases h
  byPath _ _ h := by cases h

omit [DecidableEq ι] in
theorem readPathItem_known {hops : ℕ} {seen : List String} {charged : List ℕ}
    {tail : AgentPathItem ι} (hknown : reader.resolved item = some tail) :
    readPathItem doc reader hops before seen charged item = ⟨before, some tail, false, charged⟩ := by
  rw [readPathItem, hknown]

omit [DecidableEq ι] in
theorem readPathItem_ref {hops : ℕ} {seen : List String} {charged : List ℕ} {value : Value ι}
    (hknown : reader.resolved item = none) (hbroken : reader.broken item = false)
    (hvalue : doc.own item "$ref" = some value) :
    readPathItem doc reader hops before seen charged item =
      match (pathItemRef value).filter (· ∉ seen), hops with
      | none, _ => ⟨item :: before, none, true, charged⟩
      | some _, 0 => ⟨before, none, false, charged⟩
      | some ref, hops + 1 =>
        match doc.record? (doc.walkPointer ref) with
        | none => ⟨item :: before, none, true, charged ++ [Platform.utf16Length ref + 1]⟩
        | some target => readPathItem doc reader hops (item :: before) (ref :: seen)
            (charged ++ [Platform.utf16Length ref + 1]) target := by
  rw [readPathItem, hknown, hbroken, hvalue]

theorem SoundReader.known (h : SoundReader doc reader) (hitem : Resolves doc item chain target)
    {tail : AgentPathItem ι} (hknown : reader.resolved item = some tail) :
    tail = ⟨chain, target⟩ := by
  obtain ⟨hchain, htarget⟩ := (h.resolved item tail hknown).unique hitem
  cases tail
  simp_all

theorem SoundReader.whole (h : SoundReader doc reader) (hitem : Resolves doc item chain target) :
    reader.broken item = false := by
  by_contra hbroken
  exact h.broken item (by simpa using hbroken) ⟨chain, target, hitem⟩

/-- The walk of a chain that ends: to its end or to a node of the memo, unless
it is too long. Nothing is broken by it. -/
theorem readPathItem_resolves (hreader : SoundReader doc reader) {hops : ℕ} {seen : List String}
    {charged : List ℕ} (h : Resolves doc item chain target) (hahead : Ahead doc seen chain.length)
    {walk : ReaderWalk ι} (hwalk : readPathItem doc reader hops before seen charged item = walk) :
    walk.intrinsic = false ∧
      ((∃ walked rest, chain = walked ++ rest ∧ walk.chain = walked.reverse ++ before ∧
        walk.tail = some ⟨rest, target⟩) ∨ (hops < chain.length ∧ walk.tail = none)) := by
  induction h generalizing hops before seen charged with
  | @here item hnone =>
    cases hknown : reader.resolved item with
    | some tail =>
      rw [readPathItem_known hknown] at hwalk
      subst hwalk
      exact ⟨rfl, .inl ⟨[], [], rfl, rfl, congrArg some (hreader.known (.here hnone) hknown)⟩⟩
    | none =>
      rw [readPathItem, hknown, hreader.whole (.here hnone), hnone] at hwalk
      subst hwalk
      exact ⟨rfl, .inl ⟨[], [], rfl, rfl, rfl⟩⟩
  | @next item next target value ref chain hvalue href hnext hchain ih =>
    have hresolves := Resolves.next hvalue href hnext hchain
    cases hknown : reader.resolved item with
    | some tail =>
      rw [readPathItem_known hknown] at hwalk
      subst hwalk
      exact ⟨rfl, .inl ⟨[], item :: chain, rfl, rfl, congrArg some (hreader.known hresolves hknown)⟩⟩
    | none =>
      have hnew := hahead.not_mem hvalue href hresolves
      have hallowed : (pathItemRef value).filter (· ∉ seen) = some ref := by
        simp [href, hnew]
      rw [readPathItem_ref hknown (hreader.whole hresolves) hvalue] at hwalk
      cases hops with
      | zero =>
        simp only [hallowed] at hwalk
        subst hwalk
        exact ⟨rfl, .inr ⟨Nat.succ_pos _, rfl⟩⟩
      | succ hops =>
        simp only [hallowed, hnext] at hwalk
        obtain ⟨hintrinsic, hrest⟩ := ih (hahead.cons hnext hchain) hwalk
        refine ⟨hintrinsic, ?_⟩
        rcases hrest with ⟨walked, rest, hsplit, hwalked, htail⟩ | ⟨hlong, htail⟩
        · left
          refine ⟨item :: walked, rest, by rw [hsplit, List.cons_append], ?_, htail⟩
          rw [hwalked, List.reverse_cons, List.append_assoc, List.singleton_append]
        · exact .inr ⟨Nat.succ_lt_succ hlong, htail⟩

/-- The walk of a chain that does not end meets only nodes of such chains. -/
theorem readPathItem_fails (hreader : SoundReader doc reader) (hops : ℕ) (seen : List String)
    (charged : List ℕ) (h : ¬ ∃ chain target, Resolves doc item chain target)
    (hbefore : ∀ node ∈ before, ¬ ∃ chain target, Resolves doc node chain target) :
    (readPathItem doc reader hops before seen charged item).tail = none ∧
      ∀ node ∈ (readPathItem doc reader hops before seen charged item).chain,
        ¬ ∃ chain target, Resolves doc node chain target := by
  have hknown {item : ι} (h : ¬ ∃ chain target, Resolves doc item chain target) :
      reader.resolved item = none := by
    cases hknown : reader.resolved item with
    | none => rfl
    | some known => exact absurd ⟨_, _, hreader.resolved item known hknown⟩ h
  induction hops generalizing before seen charged item with
  | zero =>
    cases hbroken : reader.broken item with
    | true => simpa [readPathItem, hknown h, hbroken] using hbefore
    | false =>
      cases hvalue : doc.own item "$ref" with
      | none => exact absurd ⟨[], item, .here hvalue⟩ h
      | some value =>
        rw [readPathItem_ref (hknown h) hbroken hvalue]
        cases (pathItemRef value).filter (· ∉ seen) with
        | none => exact ⟨rfl, List.forall_mem_cons.mpr ⟨h, hbefore⟩⟩
        | some ref => exact ⟨rfl, hbefore⟩
  | succ hops ih =>
    cases hbroken : reader.broken item with
    | true => simpa [readPathItem, hknown h, hbroken] using hbefore
    | false =>
      cases hvalue : doc.own item "$ref" with
      | none => exact absurd ⟨[], item, .here hvalue⟩ h
      | some value =>
        rw [readPathItem_ref (hknown h) hbroken hvalue]
        cases hallowed : (pathItemRef value).filter (· ∉ seen) with
        | none => exact ⟨rfl, List.forall_mem_cons.mpr ⟨h, hbefore⟩⟩
        | some ref =>
          have href : pathItemRef value = some ref := (Option.filter_eq_some_iff.mp hallowed).1
          dsimp only
          cases hnext : doc.record? (doc.walkPointer ref) with
          | none => exact ⟨rfl, List.forall_mem_cons.mpr ⟨h, hbefore⟩⟩
          | some next =>
            refine ih _ _ (fun hchain => h ?_) (List.forall_mem_cons.mpr ⟨h, hbefore⟩)
            obtain ⟨chain, target, hchain⟩ := hchain
            exact ⟨item :: chain, target, .next hvalue href hnext hchain⟩

/-- A walk without an end that is short enough. -/
theorem PathItemReader.resolve_none (hreader : SoundReader doc reader) {raw : ι}
    {walk : ReaderWalk ι}
    (hwalk : readPathItem doc reader MAX_PATH_ITEM_REF_HOPS [] [] [] raw = walk)
    (htail : (walk.tail.filter fun tail =>
      walk.chain.length + tail.chain.length ≤ MAX_PATH_ITEM_REF_HOPS) = none)
    (hbroken : walk.intrinsic = true →
      ∀ node ∈ walk.chain, ¬ ∃ chain target, Resolves doc node chain target) :
    (reader.resolve doc raw).1 = none ∧ SoundReader doc (reader.resolve doc raw).2.1 := by
  simp only [PathItemReader.resolve, hwalk, htail, true_and]
  refine ⟨hreader.resolved, fun node hnode => ?_, hreader.byPath⟩
  cases hintrinsic : walk.intrinsic with
  | false =>
    simp only [hintrinsic] at hnode
    exact hreader.broken node hnode
  | true =>
    simp only [hintrinsic, if_true, Bool.or_eq_true, List.contains_iff_mem] at hnode
    exact hnode.elim (hreader.broken node) (hbroken hintrinsic node)

/-- A walk of the reader is a resolution without a memo. -/
theorem PathItemReader.resolve_spec (hreader : SoundReader doc reader) (raw : ι) :
    (reader.resolve doc raw).1 = (resolveAlone doc raw).toOption ∧
      SoundReader doc (reader.resolve doc raw).2.1 := by
  obtain ⟨walk, hwalk⟩ : ∃ walk, readPathItem doc reader MAX_PATH_ITEM_REF_HOPS [] [] [] raw = walk :=
    ⟨_, rfl⟩
  by_cases h : ∃ chain target, Resolves doc raw chain target
  · obtain ⟨chain, target, h⟩ := h
    have halone := resolveAgentPathItem_resolves soundMemo_empty h
    have hahead : Ahead doc [] chain.length := fun _ hmem => by cases hmem
    obtain ⟨hintrinsic, hrest⟩ := readPathItem_resolves hreader h hahead hwalk
    by_cases hle : chain.length ≤ MAX_PATH_ITEM_REF_HOPS
    · rw [if_pos hle] at halone
      obtain ⟨memo, halone, -⟩ := halone
      rcases hrest with ⟨walked, rest, hsplit, hwalked, htail⟩ | ⟨hlong, htail⟩
      · rw [List.append_nil] at hwalked
        have hlength : walked.reverse.length + rest.length = chain.length := by
          rw [hsplit, List.length_append, List.length_reverse]
        have hreverse : chain = walked.reverse.reverse ++ rest := by rw [List.reverse_reverse, hsplit]
        have hmemo : SoundMemo doc (if rest = [] then
            Function.update reader.resolved target (some ⟨rest, target⟩) else reader.resolved) := by
          split
          · rename_i hrest
            subst hrest
            exact hreader.resolved.update h.target_end
          · exact hreader.resolved
        rw [hreverse] at h
        obtain ⟨hitem, hsound⟩ := rememberChain_spec hmemo h
        rw [← hreverse] at hitem
        simp only [PathItemReader.resolve, hwalk, hwalked, htail, Option.filter, hlength, hle,
          decide_true, if_true, resolveAlone, halone]
        exact ⟨congrArg some hitem, ⟨hsound, hreader.broken, hreader.byPath⟩⟩
      · omega
    · rw [if_neg hle] at halone
      rw [resolveAlone, halone]
      refine PathItemReader.resolve_none hreader hwalk ?_ fun h' => by simp [hintrinsic] at h'
      rcases hrest with ⟨walked, rest, hsplit, hwalked, htail⟩ | ⟨-, htail⟩
      · have hlength : walk.chain.length + rest.length = chain.length := by
          simp [hsplit, hwalked]
        simp [htail, hlength, hle, Option.filter]
      · rw [htail]
        rfl
  · obtain ⟨error, -, halone⟩ := resolveAgentPathItem_fails soundMemo_empty h
    obtain ⟨htail, hchain⟩ := readPathItem_fails hreader MAX_PATH_ITEM_REF_HOPS [] [] h
      (List.forall_mem_nil _)
    rw [hwalk] at htail hchain
    rw [halone]
    exact PathItemReader.resolve_none hreader hwalk (by rw [htail]; rfl) fun _ => hchain

/-- A read of a path is a resolution without a memo, cached or not. -/
theorem PathItemReader.read_spec (hreader : SoundReader doc reader) (path : String) :
    (reader.read doc path).1 =
        (pathValue doc path).bind (fun raw => (resolveAlone doc raw).toOption) ∧
      SoundReader doc (reader.read doc path).2.1 := by
  rw [PathItemReader.read]
  cases hknown : reader.byPath path with
  | some known => exact ⟨hreader.byPath path known hknown, hreader⟩
  | none =>
    have hread {item : Option (AgentPathItem ι)} {after : PathItemReader ι}
        (hitem : item = (pathValue doc path).bind fun raw => (resolveAlone doc raw).toOption)
        (hafter : SoundReader doc after) :
        SoundReader doc { after with byPath := Function.update after.byPath path (some item) } := by
      refine ⟨hafter.resolved, hafter.broken, fun path' known' hknown' => ?_⟩
      by_cases hpath : path' = path
      · subst hpath
        simp only [Function.update_self, Option.some.injEq] at hknown'
        exact hknown'.symm.trans hitem
      · simp only [Function.update_of_ne hpath] at hknown'
        exact hafter.byPath path' known' hknown'
    cases hvalue : pathValue doc path with
    | none =>
      rw [hvalue] at hread
      exact ⟨rfl, hread rfl hreader⟩
    | some raw =>
      rw [hvalue] at hread
      obtain ⟨hitem, hafter⟩ := PathItemReader.resolve_spec hreader raw
      exact ⟨hitem, hread hitem hafter⟩

variable (doc) in
/-- The reader after some reads. -/
def readerAfter (earlier : List String) : PathItemReader ι :=
  earlier.foldl (fun reader path => (reader.read doc path).2.1) createPathItemReader

theorem soundReader_readerAfter (earlier : List String) : SoundReader doc (readerAfter doc earlier) :=
  List.foldlRecOn earlier _ soundReader_create fun _ hreader path _ =>
    (PathItemReader.read_spec hreader path).2

end Memo

/-! ## Members of merged copies -/

theorem get_overlay (members overlay : Members ι) (key : String) :
    (members.overlay overlay).get key = (overlay.get key).or (members.get key) := by
  have hmap : (members.entries.map fun entry =>
      (entry.1, (overlay.get entry.1).getD entry.2)).find? (fun entry => entry.1 == key) =
      (members.entries.find? fun entry => entry.1 == key).map fun entry =>
        (entry.1, (overlay.get entry.1).getD entry.2) := List.find?_map ..
  rw [Members.get, Members.overlay, List.find?_append, hmap]
  cases hentry : members.entries.find? fun entry => entry.1 == key with
  | some entry =>
    have hkey : entry.1 = key := by simpa using List.find?_some hentry
    have hget : members.get key = some entry.2 := by rw [Members.get, hentry]; rfl
    rw [hget, hkey.symm, Option.map_some, Option.some_or, Option.map_some]
    cases overlay.get entry.1 with
    | none => rfl
    | some value => rfl
  | none =>
    have hget : members.get key = none := by rw [Members.get, hentry]; rfl
    have hsame : (fun entry : String × Value ι => decide ((members.get entry.1).isNone = true ∧
        (entry.1 == key) = true)) = fun entry => entry.1 == key := by
      ext entry
      by_cases hkey : entry.1 = key
      · simp [hkey, hget]
      · simp [hkey]
    rw [List.find?_filter, hget, hsame, Option.or_none, Option.map_none, Option.none_or, Members.get]

theorem get_without (members : Members ι) (key name : String) :
    (members.without name).get key = if key = name then none else members.get key := by
  simp only [Members.get, Members.without, List.find?_filter]
  split
  · rename_i hkey
    subst hkey
    rw [Option.map_eq_none_iff, List.find?_eq_none]
    simp
  · rename_i hkey
    have hsame : (fun entry : String × Value ι => decide (entry.1 != name ∧ entry.1 == key)) =
        fun entry => entry.1 == key := by
      ext entry
      by_cases h : entry.1 = key
      · simp [h, hkey]
      · simp [h]
    simpa using congrArg (fun p => (members.entries.find? p).map Prod.snd) hsame

theorem mergePathItem_cons (doc : Document ι) (node target : ι) (chain : List ι) :
    mergePathItem doc ⟨node :: chain, target⟩ =
      (mergePathItem doc ⟨chain, target⟩).overlay ((doc.members node).without "$ref") := by
  simp only [mergePathItem, List.reverse_cons, List.foldl_append, List.foldl_cons, List.foldl_nil]

/-- The outermost reference that sets a member wins in the copy as well. -/
theorem get_mergePathItem (doc : Document ι) (item : AgentPathItem ι) (key : String) :
    (mergePathItem doc item).get key = agentPathItemMember doc item key := by
  obtain ⟨chain, target⟩ := item
  induction chain with
  | nil => rfl
  | cons node chain ih =>
    rw [mergePathItem_cons, get_overlay, get_without, ih]
    simp only [agentPathItemMember, List.find?_cons]
    by_cases hkey : key = "$ref"
    · simp [hkey]
    · cases hown : doc.own node key with
      | none => simp_all [Document.own]
      | some value =>
        have hset : (key != "$ref" && (some value).isSome) = true := by simp [hkey]
        have hget : (doc.members node).get key = some value := hown
        rw [hset, if_neg hkey, hget]
        exact hown.symm

/-- A copy holds nothing that its chain does not. -/
theorem mem_mergePathItem {doc : Document ι} {item : AgentPathItem ι} {entry : String × Value ι}
    (h : entry ∈ (mergePathItem doc item).entries) :
    ∃ node ∈ item.chain ++ [item.target], entry ∈ (doc.members node).entries := by
  obtain ⟨chain, target⟩ := item
  induction chain generalizing entry with
  | nil => exact ⟨target, List.mem_singleton_self target, h⟩
  | cons node chain ih =>
    rw [mergePathItem_cons] at h
    have hmine {entry : String × Value ι}
        (h : entry ∈ ((doc.members node).without "$ref").entries) :
        ∃ node' ∈ node :: chain ++ [target], entry ∈ (doc.members node').entries :=
      ⟨node, List.mem_cons_self, List.mem_of_mem_filter h⟩
    rcases List.mem_append.mp h with h | h
    · obtain ⟨below, hbelow, rfl⟩ := List.mem_map.mp h
      cases hget : ((doc.members node).without "$ref").get below.1 with
      | some value => exact hmine (Members.mem_of_get hget)
      | none =>
        obtain ⟨node', hnode', hentry⟩ := ih hbelow
        rw [Option.getD_none]
        exact ⟨node', List.mem_cons_of_mem _ hnode', hentry⟩
    · exact hmine (List.mem_of_mem_filter h)

/-! ## The same reading everywhere -/

section Agreement

variable (doc : Document ι) [DecidableEq ι]

/-- The operations of the merged copies. -/
def mergedOperations (items : List (String × Members ι)) : List (ListedOperation ι) :=
  items.flatMap fun entry => operationsOf doc entry.1 entry.2.get

omit [DecidableEq ι] in
theorem mergedOperations_map (items : List (String × AgentPathItem ι)) :
    mergedOperations doc (items.map fun entry => (entry.1, mergePathItem doc entry.2)) =
      items.flatMap fun entry => operationsOf doc entry.1 (agentPathItemMember doc entry.2) := by
  rw [mergedOperations, List.flatMap_map]
  refine congrArg (items.flatMap ·) (funext fun entry => ?_)
  exact congrArg (operationsOf doc entry.1) (funext (get_mergePathItem doc entry.2))

/-- Chains resolve alike with a memo of whatever was read before and without
one, and so does the reader. A member read through a chain is that of the merged
copy, so the operations listed are those of the copies. -/
theorem path_items_agree :
    (∀ (earlier : List ι) (value : ι),
      Prod.fst <$> resolveAgentPathItem doc (memoAfter doc earlier) value = resolveAlone doc value) ∧
    (∀ (earlier : List String) (path : String), ((readerAfter doc earlier).read doc path).1 =
      (pathValue doc path).bind fun raw => (resolveAlone doc raw).toOption) ∧
    (∀ (item : AgentPathItem ι) (key : String),
      agentPathItemMember doc item key = (mergePathItem doc item).get key) ∧
    ∀ maxOperations : Option ℕ, agentOperations doc maxOperations =
      match agentPathItems doc with
      | .error failure => .error (.pathItem failure)
      | .ok items =>
        match maxOperations.filter (· < (mergedOperations doc items).length) with
        | some maxOperations => .error (.tooMany maxOperations)
        | none => .ok (mergedOperations doc items) := by
  refine ⟨fun earlier value => ?_, fun earlier path => ?_, fun item key => ?_, fun maxOperations => ?_⟩
  · exact (resolveAgentPathItem_spec (soundMemo_memoAfter earlier) value).1
  · exact (PathItemReader.read_spec (soundReader_readerAfter earlier) path).1
  · exact (get_mergePathItem doc item key).symm
  · rw [agentOperations, agentPathItems]
    cases agentPathItemEntries doc with
    | error failure => rfl
    | ok items => simp only [Except.map, mergedOperations_map]

end Agreement

end FerrumNexus.OpenApi
