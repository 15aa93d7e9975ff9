import FerrumNexus.Agents.Stamping

/-!
# What the stamped document exposes, and how large it is

The copies hold no entry twice and none that the bound did not charge for, so a
path of the stamped document is no larger than the nodes it was copied from and
the marks of its operations. Operations are told apart by path and method, and
so are the tools that are selected.
-/
namespace FerrumNexus.Agents

open OpenApi Platform

variable {ι : Type}

/-! ## Sizes of copies -/

section Sizes

theorem mapM_some {α β : Type} {f : α → Option β} {g : α → β} {l : List α}
    (h : ∀ x ∈ l, f x = some (g x)) : l.mapM f = some (l.map g) := by
  induction l with
  | nil => rfl
  | cons x l ih =>
    rw [List.mapM_cons, h x List.mem_cons_self, ih fun y hy => h y (List.mem_cons_of_mem x hy)]
    rfl

theorem mapM_of_some {α β : Type} {f g : α → Option β} {l : List α} {ys : List β}
    (h : l.mapM f = some ys) (hfg : ∀ x y, f x = some y → g x = some y) :
    l.mapM g = some ys := by
  induction l generalizing ys with
  | nil => exact h
  | cons x l ih =>
    simp only [List.mapM_cons, Option.bind_eq_bind, Option.bind_eq_some_iff] at h ⊢
    obtain ⟨y, hy, ys', hys', hcons⟩ := h
    exact ⟨y, hfg x y hy, ys', ih hys', hcons⟩

theorem mem_mapM {α β : Type} {f : α → Option β} {l : List α} {ys : List β}
    (h : l.mapM f = some ys) {x : α} (hx : x ∈ l) : ∃ y, f x = some y := by
  induction l generalizing ys with
  | nil => cases hx
  | cons x' l ih =>
    simp only [List.mapM_cons, Option.bind_eq_bind, Option.bind_eq_some_iff] at h
    obtain ⟨y, hy, ys', hys', -⟩ := h
    rcases List.mem_cons.mp hx with rfl | hx
    · exact ⟨y, hy⟩
    · exact ih hys' hx

/-- What the members of an object take, each with a comma. -/
def membersBytes (members : List (String × ℕ)) : ℕ :=
  (members.map fun member => jsonStringBytes member.1 + 2 + member.2).sum

theorem recordBytes_cons (member : String × ℕ) (members : List (String × ℕ)) :
    recordBytes (member :: members) = membersBytes (member :: members) + 1 := by
  have hsum (l : List (String × ℕ)) : membersBytes l =
      (l.map fun member => jsonStringBytes member.1 + 1 + member.2).sum + l.length := by
    induction l with
    | nil => rfl
    | cons first rest ih =>
      simp only [membersBytes, List.map_cons, List.sum_cons, List.length_cons] at ih ⊢
      omega
  have := hsum (member :: members)
  simp only [recordBytes, List.length_cons] at this ⊢
  omega

theorem recordBytes_le (members : List (String × ℕ)) :
    membersBytes members + 1 ≤ recordBytes members ∧
      recordBytes members ≤ max 2 (membersBytes members + 1) := by
  cases members with
  | nil => decide
  | cons member members =>
    rw [recordBytes_cons]
    exact ⟨le_rfl, le_max_right _ _⟩

variable [DecidableEq ι] {doc : Document ι}

/-- More fuel measures no less, and neither does a value below fewer nodes. -/
theorem jsonBytes_mono {n m : ℕ} {active active' : List ι} {value : Value ι} {bytes : ℕ}
    (h : jsonBytes doc n active value = some bytes) (hle : n ≤ m) (hsub : active' ⊆ active) :
    jsonBytes doc m active' value = some bytes := by
  induction n generalizing m active active' value bytes with
  | zero =>
    cases value with
    | node id => cases h
    | bool b => cases b <;> simpa only [jsonBytes] using h
    | _ => simpa only [jsonBytes] using h
  | succ n ih =>
    cases value with
    | bool b => cases b <;> simpa only [jsonBytes] using h
    | node id =>
      obtain ⟨m, rfl⟩ : ∃ k, m = k + 1 := ⟨m - 1, by omega⟩
      have hle : n ≤ m := by omega
      have hcons : (id :: active') ⊆ id :: active := List.cons_subset_cons id hsub
      simp only [jsonBytes] at h ⊢
      split at h
      · cases h
      rename_i hnew
      rw [if_neg fun hmem => hnew (hsub hmem)]
      split at h
      · obtain ⟨sizes, hsizes, rfl⟩ := Option.map_eq_some_iff.mp h
        rw [mapM_of_some hsizes fun x y hy => ih hy hle hcons]
        rfl
      · obtain ⟨sizes, hsizes, rfl⟩ := Option.map_eq_some_iff.mp h
        rw [mapM_of_some hsizes (fun entry y hy => ?_)]
        · rfl
        · obtain ⟨bytes, hbytes, rfl⟩ := Option.map_eq_some_iff.mp hy
          rw [ih hbytes hle hcons]
          rfl
    | _ => simpa only [jsonBytes] using h

variable [Fintype ι]

variable (doc) in
/-- A node that is an item or a member of another. -/
def Below (id child : ι) : Prop :=
  match doc.nodes id with
  | .array items => .node child ∈ items
  | .record members => ∃ entry ∈ members.entries, entry.2 = .node child

/-- Only what is below itself has no size. -/
theorem jsonBytes_ne_none {rank : ι → ℕ} (hrank : ∀ id child, Below doc id child → rank child < rank id)
    {n : ℕ} {active : List ι} {value : Value ι} (hnodup : active.Nodup)
    (habove : ∀ id, value = .node id → ∀ other ∈ active, rank id < rank other)
    (hn : Fintype.card ι < n + active.length) : jsonBytes doc n active value ≠ none := by
  induction n generalizing active value with
  | zero =>
    have := hnodup.length_le_card
    omega
  | succ n ih =>
    cases value with
    | node id =>
      have hnew : id ∉ active := fun hmem => lt_irrefl _ (habove id rfl id hmem)
      have hchild (child : Value ι) (h : ∀ below, child = .node below → Below doc id below) :
          ∃ bytes, jsonBytes doc n (id :: active) child = some bytes := by
        refine Option.ne_none_iff_exists'.mp (ih (List.nodup_cons.mpr ⟨hnew, hnodup⟩) ?_ ?_)
        · intro below hbelow other hother
          have hless := hrank id below (h below hbelow)
          rcases List.mem_cons.mp hother with rfl | hother
          · exact hless
          · exact hless.trans (habove id rfl other hother)
        · rw [List.length_cons]
          omega
      simp only [jsonBytes, if_neg hnew]
      cases hnode : doc.nodes id with
      | array items =>
        have hitems (item : Value ι) (hmem : item ∈ items) : jsonBytes doc n (id :: active) item =
            some ((jsonBytes doc n (id :: active) item).getD 0) := by
          obtain ⟨bytes, hbytes⟩ := hchild item fun below hbelow => by
            rw [Below, hnode]
            exact hbelow ▸ hmem
          rw [hbytes]
          rfl
        dsimp only
        rw [mapM_some hitems]
        exact Option.some_ne_none _
      | record members =>
        have hentries (entry : String × Value ι) (hmem : entry ∈ members.entries) :
            (jsonBytes doc n (id :: active) entry.2).map (entry.1, ·) =
              some (entry.1, (jsonBytes doc n (id :: active) entry.2).getD 0) := by
          obtain ⟨bytes, hbytes⟩ := hchild entry.2 fun below hbelow => by
            rw [Below, hnode]
            exact ⟨entry, hmem, hbelow⟩
          rw [hbytes]
          rfl
        dsimp only
        rw [mapM_some hentries]
        exact Option.some_ne_none _
    | bool b => cases b <;> simp [jsonBytes]
    | _ => simp [jsonBytes]

/-- Every value of a document without cycles is measured. -/
theorem size_ne_none {rank : ι → ℕ} (hrank : ∀ id child, Below doc id child → rank child < rank id)
    (value : Value ι) : size doc value ≠ none :=
  jsonBytes_ne_none hrank List.nodup_nil (by simp) (by simp)

variable (doc) in
/-- The size of a value, where it has one. -/
def weight (value : Value ι) : ℕ := (size doc value).getD 0

variable (doc) in
/-- The members of an object with their sizes. -/
def weighed (entries : List (String × Value ι)) : List (String × ℕ) :=
  entries.map fun entry => (entry.1, weight doc entry.2)

variable (doc) in
def Measured (entries : List (String × Value ι)) : Prop :=
  ∀ entry ∈ entries, size doc entry.2 = some (weight doc entry.2)

/-- An object with a size has members with sizes. -/
theorem size_members {id : ι} {bytes : ℕ} (h : size doc (.node id) = some bytes) :
    Measured doc (doc.members id).entries ∧
      membersBytes (weighed doc (doc.members id).entries) + 1 ≤ bytes ∧
      recordBytes (weighed doc (doc.members id).entries) ≤ bytes := by
  simp only [size, jsonBytes, List.not_mem_nil, if_false] at h
  cases hnode : doc.nodes id with
  | array items =>
    rw [hnode] at h
    obtain ⟨sizes, -, rfl⟩ := Option.map_eq_some_iff.mp h
    simp only [Document.members, hnode]
    refine ⟨fun _ hmem => ?_, ?_, ?_⟩
    · cases hmem
    · simp [Members.none, weighed, membersBytes, arrayBytes]
      omega
    · simp [Members.none, weighed, recordBytes, arrayBytes]
      omega
  | record members =>
    rw [hnode] at h
    obtain ⟨sizes, hsizes, rfl⟩ := Option.map_eq_some_iff.mp h
    simp only [Document.members, hnode]
    have hmeasured : Measured doc members.entries := by
      intro entry hmem
      obtain ⟨y, hy⟩ := mem_mapM hsizes hmem
      obtain ⟨bytes, hbytes, rfl⟩ := Option.map_eq_some_iff.mp hy
      have hsize : size doc entry.2 = some bytes :=
        jsonBytes_mono hbytes (Nat.le_succ _) (List.nil_subset _)
      rw [weight, hsize]
      rfl
    have hweighed : sizes = weighed doc members.entries := by
      have hall : members.entries.mapM (fun entry => (size doc entry.2).map (entry.1, ·)) =
          some sizes := mapM_of_some hsizes fun entry y hy => by
        obtain ⟨bytes, hbytes, rfl⟩ := Option.map_eq_some_iff.mp hy
        rw [size, jsonBytes_mono hbytes (Nat.le_succ _) (List.nil_subset _)]
        rfl
      rw [mapM_some (g := fun entry => (entry.1, weight doc entry.2))] at hall
      · exact (Option.some.inj hall).symm
      · intro entry hmem
        rw [hmeasured entry hmem]
        rfl
    rw [hweighed]
    exact ⟨hmeasured, (recordBytes_le _).1, le_rfl⟩

/-- What is contained without repetition weighs no more. -/
theorem sum_le_of_subset {α : Type} {l l' : List α} (hnodup : l.Nodup) (hsub : l ⊆ l') (f : α → ℕ) :
    (l.map f).sum ≤ (l'.map f).sum := by
  obtain ⟨below, hperm, hsublist⟩ := hnodup.subperm hsub
  rw [← (hperm.map f).sum_eq]
  exact (hsublist.map f).sum_le_sum fun _ _ => Nat.zero_le _

/-- Every cost is known, and all of them are charged. -/
theorem charge_ok {costs : List (Option ℕ)} {used total : ℕ} (h : charge costs used = .ok total) :
    (∀ cost ∈ costs, cost ≠ none) ∧ total = used + (costs.map (·.getD 0)).sum := by
  induction costs generalizing used with
  | nil =>
    cases h
    simp
  | cons cost costs ih =>
    cases cost with
    | none => cases h
    | some cost =>
      rw [charge] at h
      split at h
      · cases h
      · obtain ⟨hknown, htotal⟩ := ih h
        refine ⟨by simpa using hknown, ?_⟩
        rw [htotal]
        simp only [List.map_cons, Option.getD_some, List.sum_cons]
        omega

end Sizes

/-! ## Marks -/

def boolBytes (b : Bool) : ℕ := if b then 4 else 5

def ExposureMark.bytes : ExposureMark → ℕ
  | .hidden => recordBytes [("expose", boolBytes false)]
  | .exposed name description readOnlyHint =>
    recordBytes [("expose", boolBytes true), ("name", jsonStringBytes name),
      ("description", jsonStringBytes description),
      ("annotations", recordBytes [("readOnlyHint", boolBytes readOnlyHint),
        ("destructiveHint", boolBytes !readOnlyHint)])]

/-- What a tool adds to the mark of its operation. -/
def toolShare (agents : ApiAgents) (listed : ListedOperation ι) : ℕ :=
  match toolOf agents (upper listed.method) listed.path with
  | some tool => jsonStringBytes tool.name + jsonStringBytes tool.description
  | none => 0

/-- What a mark adds to an operation. -/
def markBytes (agents : ApiAgents) (listed : ListedOperation ι) : ℕ :=
  jsonStringBytes "x-ferrum-mcp" + 2 + (exposureMark agents (upper listed.method) listed.path).bytes

theorem markBytes_le (agents : ApiAgents) (listed : ListedOperation ι) :
    markBytes agents listed ≤ OPERATION_STAMP_BYTES + toolShare agents listed := by
  have hmember : jsonStringBytes "x-ferrum-mcp" = 14 := by decide
  rw [markBytes, hmember, exposureMark, toolShare, OPERATION_STAMP_BYTES]
  cases toolOf agents (upper listed.method) listed.path with
  | none =>
    show 14 + 2 + ExposureMark.hidden.bytes ≤ 128 + 0
    decide
  | some tool =>
    have hnames : jsonStringBytes "expose" = 8 ∧ jsonStringBytes "name" = 6 ∧
        jsonStringBytes "description" = 13 ∧ jsonStringBytes "annotations" = 13 ∧
        jsonStringBytes "readOnlyHint" = 14 ∧ jsonStringBytes "destructiveHint" = 17 := by decide
    obtain ⟨hexpose, hname, hdescription, hannotations, hread, hdestructive⟩ := hnames
    have hbool (b : Bool) : boolBytes b ≤ 5 := by cases b <;> decide
    have hfirst := hbool (isReadOnlyAgentMethod (upper listed.method))
    have hsecond := hbool (!isReadOnlyAgentMethod (upper listed.method))
    simp only [ExposureMark.bytes, recordBytes, List.map_cons, List.map_nil, List.sum_cons,
      List.sum_nil, List.length_cons, List.length_nil, hexpose, hname, hdescription, hannotations,
      hread, hdestructive]
    have htrue := hbool true
    omega

/-! ## The size of a stamped path -/

section Paths

variable [DecidableEq ι] [Fintype ι] (doc : Document ι)

def stampedMemberBytes : StampedMember ι → Option ℕ
  | .kept value => size doc value
  | .operation operation =>
    (operation.members.mapM fun entry => (size doc entry.2).map (entry.1, ·)).map fun members =>
      recordBytes (members ++ [("x-ferrum-mcp", operation.mark.bytes)])

def stampedItemBytes (item : List (String × StampedMember ι)) : Option ℕ :=
  (item.mapM fun entry => (stampedMemberBytes doc entry.2).map (entry.1, ·)).map recordBytes

/-- The compact JSON size of the stamped paths. -/
def stampedPathsBytes (paths : List (String × List (String × StampedMember ι))) : Option ℕ :=
  (paths.mapM fun entry => (stampedItemBytes doc entry.2).map (entry.1, ·)).map recordBytes

variable {doc}

/-- The operation a member of a Path Item is. -/
def operationOf (doc : Document ι) (path : String) (entry : String × Value ι) :
    Option (ListedOperation ι) :=
  match OPENAPI_OPERATION_METHODS.find? (fun method => method.key == entry.1), doc.record? (some entry.2) with
  | some method, some operation => some ⟨path, method, operation⟩
  | _, _ => none

theorem weighed_append (entries : List (String × Value ι)) (member : String × ℕ) :
    membersBytes (weighed doc entries ++ [member]) =
      membersBytes (weighed doc entries) + (jsonStringBytes member.1 + 2 + member.2) := by
  simp [membersBytes]

omit [DecidableEq ι] [Fintype ι] in
theorem record?_eq {value : Value ι} {id : ι} (h : doc.record? (some value) = some id) :
    value = .node id := by
  cases value with
  | node id' =>
    simp only [Document.record?] at h
    split at h
    · cases h
      rfl
    · cases h
  | _ => cases h

/-- A member's copy is larger by its mark at most. -/
theorem stampMember_bytes {agents : ApiAgents} {path : String} {entry : String × Value ι}
    (h : size doc entry.2 = some (weight doc entry.2)) :
    ∃ bytes, stampedMemberBytes doc (stampMember doc agents path entry) = some bytes ∧
      bytes ≤ weight doc entry.2 + ((operationOf doc path entry).map (markBytes agents)).getD 0 := by
  rw [stampMember, operationOf]
  cases hmethod : OPENAPI_OPERATION_METHODS.find? (fun method => method.key == entry.1) with
  | none => exact ⟨_, h, by simp⟩
  | some method =>
    cases hrecord : doc.record? (some entry.2) with
    | none => exact ⟨_, h, by simp⟩
    | some operation =>
      rw [record?_eq hrecord] at h ⊢
      obtain ⟨hmeasured, hbytes, -⟩ := size_members h
      have hclean : Measured doc (cleanMembers doc operation) := fun entry hmem =>
        hmeasured entry (List.mem_of_mem_filter hmem)
      have hless : membersBytes (weighed doc (cleanMembers doc operation)) ≤
          membersBytes (weighed doc (doc.members operation).entries) := by
        have hsublist : (weighed doc (cleanMembers doc operation)).Sublist
            (weighed doc (doc.members operation).entries) := List.filter_sublist.map _
        exact (hsublist.map _).sum_le_sum fun _ _ => Nat.zero_le _
      have hmembers : (cleanMembers doc operation).mapM
          (fun entry => (size doc entry.2).map (entry.1, ·)) =
            some (weighed doc (cleanMembers doc operation)) := by
        refine mapM_some fun entry hmem => ?_
        rw [hclean entry hmem]
        rfl
      refine ⟨_, by rw [stampedMemberBytes, hmembers]; rfl, ?_⟩
      have hrecordBytes := (recordBytes_le (weighed doc (cleanMembers doc operation) ++
        [("x-ferrum-mcp", (exposureMark agents (upper method) path).bytes)])).2
      rw [weighed_append] at hrecordBytes
      dsimp only at hrecordBytes
      simp only [Option.map_some, Option.getD_some, markBytes]
      omega

omit [DecidableEq ι] [Fintype ι] in
theorem operationOf_spec {path : String} {entry : String × Value ι} {listed : ListedOperation ι}
    (h : operationOf doc path entry = some listed) :
    listed.path = path ∧ listed.method ∈ OPENAPI_OPERATION_METHODS ∧
      entry = (listed.method.key, .node listed.operation) ∧
      doc.record? (some entry.2) = some listed.operation := by
  rw [operationOf] at h
  split at h
  · rename_i method operation hmethod hrecord
    cases h
    have hkey : method.key = entry.1 := by simpa using List.find?_some hmethod
    exact ⟨rfl, List.mem_of_find?_eq_some hmethod, Prod.ext hkey.symm (record?_eq hrecord), hrecord⟩
  · cases h

omit [DecidableEq ι] [Fintype ι] in
/-- The members that are operations are the operations that are listed. -/
theorem operationOf_subset (doc : Document ι) (path : String) (item : Members ι) :
    (item.entries.filterMap (operationOf doc path)).Nodup ∧
      item.entries.filterMap (operationOf doc path) ⊆ operationsOf doc path item.get := by
  constructor
  · refine item.distinct.of_map.filterMap fun entry entry' listed h h' => ?_
    rw [(operationOf_spec h).2.2.1, (operationOf_spec h').2.2.1]
  · intro listed hlisted
    obtain ⟨entry, hmem, hoperation⟩ := List.mem_filterMap.mp hlisted
    obtain ⟨hpath, hmethod, hentry, hrecord⟩ := operationOf_spec hoperation
    refine List.mem_filterMap.mpr ⟨listed.method, hmethod, ?_⟩
    have hget : item.get listed.method.key = some entry.2 := by
      rw [← Members.get_of_mem hmem, hentry]
    rw [hget, hrecord, ← hpath]
    rfl

theorem sum_filterMap {α β : Type} (l : List α) (f : α → Option β) (g : β → ℕ) :
    ((l.filterMap f).map g).sum = (l.map fun x => ((f x).map g).getD 0).sum := by
  induction l with
  | nil => rfl
  | cons x l ih => cases h : f x <;> simp [h, ih]

theorem map_le_map {α : Type} {l : List α} {f g : α → ℕ} (h : ∀ x ∈ l, f x ≤ g x) :
    (l.map f).sum ≤ (l.map g).sum := List.sum_le_sum h

variable {item : AgentPathItem ι}

/-- The members of a copy come from the nodes of its chain, each from one. -/
theorem copy_members_bytes (h : ∀ node ∈ item.chain ++ [item.target],
      size doc (.node node) = some (weight doc (.node node))) :
    Measured doc (mergePathItem doc item).entries ∧
      max 2 (membersBytes (weighed doc (mergePathItem doc item).entries) + 1) ≤
        ((item.chain ++ [item.target]).map fun node => weight doc (.node node)).sum := by
  have hmeasured : Measured doc (mergePathItem doc item).entries := by
    intro entry hentry
    obtain ⟨node, hnode, hmem⟩ := mem_mergePathItem hentry
    exact (size_members (h node hnode)).1 entry hmem
  refine ⟨hmeasured, ?_⟩
  have hsubset : (mergePathItem doc item).entries ⊆
      (item.chain ++ [item.target]).flatMap fun node => (doc.members node).entries :=
    fun entry hentry => List.mem_flatMap.mpr (mem_mergePathItem hentry)
  have hcopy := sum_le_of_subset (mergePathItem doc item).distinct.of_map hsubset
    fun entry => jsonStringBytes entry.1 + 2 + weight doc entry.2
  have hflat : (((item.chain ++ [item.target]).flatMap fun node => (doc.members node).entries).map
      fun entry => jsonStringBytes entry.1 + 2 + weight doc entry.2).sum =
        ((item.chain ++ [item.target]).map fun node =>
          membersBytes (weighed doc (doc.members node).entries)).sum := by
    induction item.chain ++ [item.target] with
    | nil => rfl
    | cons node nodes ih =>
      rw [List.flatMap_cons, List.map_append, List.sum_append, ih, List.map_cons, List.sum_cons,
        membersBytes, weighed, List.map_map]
      rfl
  have hnode : ∀ node ∈ item.chain ++ [item.target],
      membersBytes (weighed doc (doc.members node).entries) + 1 ≤ weight doc (.node node) ∧
        2 ≤ weight doc (.node node) := by
    intro node hmem
    obtain ⟨-, hmembers, hrecord⟩ := size_members (h node hmem)
    have htwo : 2 ≤ recordBytes (weighed doc (doc.members node).entries) := by
      simp only [recordBytes]
      omega
    exact ⟨hmembers, htwo.trans hrecord⟩
  have hchain : (item.chain.map fun node => membersBytes (weighed doc (doc.members node).entries)).sum ≤
      (item.chain.map fun node => weight doc (.node node)).sum :=
    map_le_map fun node hmem => by
      have := hnode node (List.mem_append_left _ hmem)
      omega
  have htarget := hnode item.target (by simp)
  rw [hflat] at hcopy
  simp only [List.map_append, List.sum_append, List.map_cons, List.map_nil, List.sum_cons,
    List.sum_nil] at hcopy ⊢
  simp only [membersBytes, weighed, List.map_map, Function.comp_def] at hcopy hchain htarget ⊢
  omega

/-- A copy is no larger than the nodes it was put together from and the marks of
its operations. -/
theorem stampPathItem_bytes (agents : ApiAgents) (path : String)
    (h : ∀ node ∈ item.chain ++ [item.target],
      size doc (.node node) = some (weight doc (.node node))) :
    ∃ bytes, stampedItemBytes doc (stampPathItem doc agents path (mergePathItem doc item)) = some bytes ∧
      bytes ≤ ((item.chain ++ [item.target]).map fun node => weight doc (.node node)).sum +
        ((operationsOf doc path (agentPathItemMember doc item)).map (markBytes agents)).sum := by
  obtain ⟨hmeasured, hcopy⟩ := copy_members_bytes h
  have hmember (entry : String × Value ι) (hmem : entry ∈ (mergePathItem doc item).entries) :
      stampedMemberBytes doc (stampMember doc agents path entry) =
          some ((stampedMemberBytes doc (stampMember doc agents path entry)).getD 0) ∧
        (stampedMemberBytes doc (stampMember doc agents path entry)).getD 0 ≤
          weight doc entry.2 + ((operationOf doc path entry).map (markBytes agents)).getD 0 := by
    obtain ⟨bytes, hbytes, hle⟩ := stampMember_bytes (hmeasured entry hmem)
    rw [hbytes]
    exact ⟨rfl, hle⟩
  refine ⟨recordBytes (((mergePathItem doc item).entries.filter fun entry => entry.1 != "servers").map
    fun entry => (entry.1, (stampedMemberBytes doc (stampMember doc agents path entry)).getD 0)), ?_, ?_⟩
  · rw [stampedItemBytes, stampPathItem, List.mapM_map, mapM_some fun entry hmem => ?_]
    · rfl
    · rw [Function.comp_apply, (hmember entry (List.mem_of_mem_filter hmem)).1]
      rfl
  · have hrecord := (recordBytes_le (((mergePathItem doc item).entries.filter fun entry =>
      entry.1 != "servers").map fun entry =>
        (entry.1, (stampedMemberBytes doc (stampMember doc agents path entry)).getD 0))).2
    have hfilter : membersBytes (((mergePathItem doc item).entries.filter fun entry =>
        entry.1 != "servers").map fun entry =>
          (entry.1, (stampedMemberBytes doc (stampMember doc agents path entry)).getD 0)) ≤
        membersBytes ((mergePathItem doc item).entries.map fun entry =>
          (entry.1, (stampedMemberBytes doc (stampMember doc agents path entry)).getD 0)) :=
      ((List.filter_sublist.map _).map _).sum_le_sum fun _ _ => Nat.zero_le _
    have hmarks : ((mergePathItem doc item).entries.map fun entry =>
        ((operationOf doc path entry).map (markBytes agents)).getD 0).sum ≤
          ((operationsOf doc path (agentPathItemMember doc item)).map (markBytes agents)).sum := by
      obtain ⟨hnodup, hsubset⟩ := operationOf_subset doc path (mergePathItem doc item)
      have hget : (mergePathItem doc item).get = agentPathItemMember doc item :=
        funext (get_mergePathItem doc item)
      rw [hget] at hsubset
      rw [← sum_filterMap]
      exact sum_le_of_subset hnodup hsubset (markBytes agents)
    have hall : membersBytes ((mergePathItem doc item).entries.map fun entry =>
        (entry.1, (stampedMemberBytes doc (stampMember doc agents path entry)).getD 0)) ≤
        membersBytes (weighed doc (mergePathItem doc item).entries) +
          ((mergePathItem doc item).entries.map fun entry =>
            ((operationOf doc path entry).map (markBytes agents)).getD 0).sum := by
      simp only [membersBytes, weighed, List.map_map, ← List.sum_map_add]
      refine map_le_map fun entry hmem => ?_
      have := (hmember entry hmem).2
      simp only [Function.comp_apply]
      omega
    omega

theorem routeBytes_le (listenPaths : List String) (path : String) :
    OPERATION_STAMP_BYTES ≤ routeBytes listenPaths path := by
  have hfold (route : ℕ) : route ≤ listenPaths.foldl (fun route listenPath => max route
      (OPERATION_STAMP_BYTES + jsonStringBytes (mounted listenPath path) +
        jsonStringBytes (pathRegexText (mounted listenPath path)))) route := by
    induction listenPaths generalizing route with
    | nil => exact le_rfl
    | cons listenPath rest ih => exact (le_max_left _ _).trans (ih _)
  exact hfold OPERATION_STAMP_BYTES

/-- What is charged for a path pays for its copy, less what its tools say. -/
theorem pathCosts_bytes (agents : ApiAgents) {listenPaths : List String} {path : String}
    (h : ∀ cost ∈ pathCosts doc listenPaths path item, cost ≠ none) :
    ∃ bytes, stampedItemBytes doc (stampPathItem doc agents path (mergePathItem doc item)) = some bytes ∧
      jsonStringBytes path + 2 + bytes ≤
        ((pathCosts doc listenPaths path item).map (·.getD 0)).sum +
          ((operationsOf doc path (agentPathItemMember doc item)).map (toolShare agents)).sum := by
  have hnodes : ∀ node ∈ item.chain ++ [item.target],
      size doc (.node node) = some (weight doc (.node node)) := by
    intro node hmem
    have hcost : size doc (.node node) ∈ pathCosts doc listenPaths path item := by
      rcases List.mem_append.mp hmem with hmem | hmem
      · simp only [pathCosts, List.mem_append, List.mem_map]
        exact .inl (.inl (.inr ⟨node, hmem, rfl⟩))
      · rw [List.mem_singleton.mp hmem]
        simp [pathCosts]
    obtain ⟨bytes, hbytes⟩ := Option.ne_none_iff_exists'.mp (h _ hcost)
    rw [weight, hbytes]
    rfl
  obtain ⟨bytes, hbytes, hle⟩ := stampPathItem_bytes agents path hnodes
  refine ⟨bytes, hbytes, ?_⟩
  have hmarks : ((operationsOf doc path (agentPathItemMember doc item)).map (markBytes agents)).sum ≤
      ((operationsOf doc path (agentPathItemMember doc item)).map fun _ =>
        routeBytes listenPaths path).sum +
        ((operationsOf doc path (agentPathItemMember doc item)).map (toolShare agents)).sum := by
    rw [← List.sum_map_add]
    refine map_le_map fun listed _ => ?_
    have hmark := markBytes_le agents listed
    have hroute := routeBytes_le listenPaths path
    omega
  simp only [pathCosts, List.map_append, List.map_cons, List.map_nil, List.map_map, List.sum_append,
    List.sum_cons, List.sum_nil, Option.getD_some, Function.comp_def, weight] at hle hmarks ⊢
  omega

/-- The charges for the paths of a document that resolves. -/
theorem chargePaths_ok {listenPaths : List String} {memo : PathItemMemo ι}
    {entries : List (String × Value ι)} {used total : ℕ}
    (h : chargePaths doc listenPaths memo entries used = .ok total) :
    ∃ items, resolveEntries doc memo entries = .ok items ∧
      (∀ entry ∈ items, ∀ cost ∈ pathCosts doc listenPaths entry.1 entry.2, cost ≠ none) ∧
      total = used + (items.map fun entry =>
        ((pathCosts doc listenPaths entry.1 entry.2).map (·.getD 0)).sum).sum := by
  induction entries generalizing memo used with
  | nil =>
    cases h
    exact ⟨[], rfl, by simp, rfl⟩
  | cons entry rest ih =>
    obtain ⟨path, value⟩ := entry
    rw [chargePaths] at h
    cases hfound : (doc.record? (some value)).filter fun _ => path.toList.head? = some '/' with
    | none =>
      have hskip : resolveEntries doc memo ((path, value) :: rest) = resolveEntries doc memo rest := by
        simp only [resolveEntries, hfound]
      rw [hskip]
      simp only [hfound] at h
      exact ih h
    | some raw =>
      cases hitem : resolveAgentPathItem doc memo raw with
      | error error =>
        simp only [hfound, hitem] at h
        cases h
      | ok found =>
        obtain ⟨item, memo'⟩ := found
        have hresolve : resolveEntries doc memo ((path, value) :: rest) =
            (resolveEntries doc memo' rest).map fun items => (path, item) :: items := by
          simp only [resolveEntries, hfound, hitem]
        simp only [hfound, hitem] at h
        cases hcharge : charge (pathCosts doc listenPaths path item) used with
        | error error =>
          simp only [hcharge] at h
          cases h
        | ok used' =>
          simp only [hcharge] at h
          obtain ⟨hknown, hused⟩ := charge_ok hcharge
          obtain ⟨items, hitems, hrest, htotal⟩ := ih h
          refine ⟨(path, item) :: items, ?_, List.forall_mem_cons.mpr ⟨hknown, hrest⟩, ?_⟩
          · rw [hresolve, hitems]
            rfl
          · rw [htotal, hused, List.map_cons, List.sum_cons]
            dsimp only
            omega

end Paths

/-! ## Selected operations -/

/-- A method has no blank in it, so a key is read back. -/
theorem operationKey_injective {method method' : HttpMethod} {path path' : String}
    (h : operationKey method path = operationKey method' path') : method = method' ∧ path = path' := by
  have hlist : method.text.toList ++ ' ' :: path.toList = method'.text.toList ++ ' ' :: path'.toList := by
    simpa [operationKey] using congrArg String.toList h
  have hblank (method : HttpMethod) : ∀ c ∈ method.text.toList, (c != ' ') = true := by
    apply List.all_eq_true.mp
    cases method <;> rfl
  have hword (method : HttpMethod) (rest : List Char) :
      (method.text.toList ++ ' ' :: rest).takeWhile (· != ' ') = method.text.toList := by
    rw [List.takeWhile_append_of_pos (hblank method)]
    simp
  have htext : method.text.toList = method'.text.toList := by
    rw [← hword method path.toList, hlist, hword]
  have hmethod : method = method' := by
    revert htext
    cases method <;> cases method' <;> decide
  subst hmethod
  rw [List.append_cancel_left_eq, List.cons.injEq] at hlist
  exact ⟨rfl, String.toList_injective hlist.2⟩

theorem toolOf_spec {agents : ApiAgents} {method : HttpMethod} {path : String} {tool : AgentTool}
    (h : toolOf agents method path = some tool) :
    tool ∈ agents.operations ∧ tool.method = method ∧ tool.path = path := by
  have hkey : operationKey tool.method tool.path = operationKey method path := by
    simpa using List.find?_some h
  exact ⟨List.mem_reverse.mp (List.mem_of_find?_eq_some h), operationKey_injective hkey⟩

theorem toolOf_eq_none {agents : ApiAgents} {method : HttpMethod} {path : String} :
    toolOf agents method path = none ↔
      ¬ ∃ tool ∈ agents.operations, tool.method = method ∧ tool.path = path := by
  simp only [toolOf, List.find?_eq_none, List.mem_reverse, beq_iff_eq, not_exists, not_and]
  refine forall₂_congr fun tool _ => ⟨fun h hmethod hpath => h ?_, fun h hkey => ?_⟩
  · rw [hmethod, hpath]
  · obtain ⟨hmethod, hpath⟩ := operationKey_injective hkey
    exact h hmethod hpath

/-- With operations named once, the tool of an operation is the one selected. -/
theorem toolOf_of_mem {agents : ApiAgents} {tool : AgentTool} (hkeys : agents.keys.Nodup)
    (hmem : tool ∈ agents.operations) : toolOf agents tool.method tool.path = some tool := by
  cases h : toolOf agents tool.method tool.path with
  | none => exact absurd ⟨tool, hmem, rfl, rfl⟩ (toolOf_eq_none.mp h)
  | some other =>
    obtain ⟨hmem', hmethod, hpath⟩ := toolOf_spec h
    have hkey : operationKey other.method other.path = operationKey tool.method tool.path := by
      rw [hmethod, hpath]
    rw [List.inj_on_of_nodup_map hkeys hmem' hmem hkey]

theorem upper_injective : upper.Injective := by
  intro method method' h
  revert h
  cases method <;> cases method' <;> decide

/-- The tools of different operations are different tools. -/
theorem toolShare_le (agents : ApiAgents) (slug : ℕ) {operations : List (ListedOperation ι)}
    (h : (operations.map fun listed => (listed.path, listed.method)).Nodup) :
    (operations.map (toolShare agents)).sum ≤ (agents.operations.map (toolBytes slug)).sum := by
  have hshare : (operations.map (toolShare agents)).sum =
      ((operations.filterMap fun listed => toolOf agents (upper listed.method) listed.path).map
        fun tool => jsonStringBytes tool.name + jsonStringBytes tool.description).sum := by
    rw [sum_filterMap]
    refine congrArg List.sum (List.map_congr_left fun listed _ => ?_)
    rw [toolShare]
    cases toolOf agents (upper listed.method) listed.path <;> rfl
  have hnodup : (operations.filterMap fun listed =>
      toolOf agents (upper listed.method) listed.path).Nodup := by
    refine List.Pairwise.filterMap _ (fun listed listed' hne tool htool tool' htool' heq => ?_)
      (List.pairwise_map.mp h)
    subst heq
    obtain ⟨-, hmethod, hpath⟩ := toolOf_spec htool
    obtain ⟨-, hmethod', hpath'⟩ := toolOf_spec htool'
    exact hne (Prod.ext (hpath.symm.trans hpath') (upper_injective (hmethod.symm.trans hmethod')))
  have hsubset : (operations.filterMap fun listed =>
      toolOf agents (upper listed.method) listed.path) ⊆ agents.operations := by
    intro tool htool
    obtain ⟨listed, -, hlisted⟩ := List.mem_filterMap.mp htool
    exact (toolOf_spec hlisted).1
  rw [hshare]
  refine (sum_le_of_subset hnodup hsubset _).trans (map_le_map fun tool _ => ?_)
  rw [toolBytes]
  omega

/-! ## Operations of the resolved document -/

section Operations

variable [DecidableEq ι] {doc : Document ι}

theorem resolveEntries_paths {memo : PathItemMemo ι} {entries : List (String × Value ι)}
    {items : List (String × AgentPathItem ι)} (h : resolveEntries doc memo entries = .ok items) :
    (items.map Prod.fst).Sublist (entries.map Prod.fst) ∧
      ∀ entry ∈ items, entry.1.toList.head? = some '/' := by
  induction entries generalizing memo items with
  | nil =>
    cases h
    exact ⟨List.Sublist.refl _, by simp⟩
  | cons entry rest ih =>
    obtain ⟨path, value⟩ := entry
    rw [resolveEntries] at h
    split at h
    · obtain ⟨hsublist, hslash⟩ := ih h
      exact ⟨hsublist.cons path, hslash⟩
    · rename_i raw hraw
      split at h
      · cases h
      · rename_i item memo' hitem
        cases hrest : resolveEntries doc memo' rest with
        | error failure =>
          rw [hrest] at h
          cases h
        | ok items' =>
          rw [hrest] at h
          cases h
          obtain ⟨hsublist, hslash⟩ := ih hrest
          refine ⟨hsublist.cons_cons path, List.forall_mem_cons.mpr ⟨?_, hslash⟩⟩
          simpa using (Option.filter_eq_some_iff.mp hraw).2

omit [DecidableEq ι] in
theorem pathEntries_distinct (doc : Document ι) : ((pathEntries doc).map Prod.fst).Nodup := by
  rw [pathEntries]
  split
  · exact List.nodup_nil
  · exact (doc.members _).distinct

omit [DecidableEq ι] in
theorem operationsOf_nodup (path : String) (get : String → Option (Value ι)) :
    ((operationsOf doc path get).map fun listed => (listed.path, listed.method)).Nodup := by
  rw [List.Nodup, List.pairwise_map]
  have hmethods : OPENAPI_OPERATION_METHODS.Nodup := by decide
  refine List.Pairwise.filterMap _ (fun method method' hne listed h listed' h' heq => ?_) hmethods
  obtain ⟨operation, -, rfl⟩ := Option.map_eq_some_iff.mp h
  obtain ⟨operation', -, rfl⟩ := Option.map_eq_some_iff.mp h'
  exact hne (congrArg Prod.snd heq)

omit [DecidableEq ι] in
theorem operationsOf_path {path : String} {get : String → Option (Value ι)}
    {listed : ListedOperation ι} (h : listed ∈ operationsOf doc path get) :
    listed.path = path ∧ doc.record? (get listed.method.key) = some listed.operation := by
  obtain ⟨method, -, hlisted⟩ := List.mem_filterMap.mp h
  obtain ⟨operation, hoperation, rfl⟩ := Option.map_eq_some_iff.mp hlisted
  exact ⟨rfl, hoperation⟩

omit [DecidableEq ι] in
/-- Different paths have different operations. -/
theorem mergedOperations_nodup (doc : Document ι) {items : List (String × Members ι)}
    (h : (items.map Prod.fst).Nodup) :
    ((mergedOperations doc items).map fun listed => (listed.path, listed.method)).Nodup := by
  rw [mergedOperations, List.map_flatMap, List.nodup_flatMap]
  refine ⟨fun entry _ => operationsOf_nodup entry.1 entry.2.get, ?_⟩
  refine (List.pairwise_map.mp h).imp fun {entry entry'} hne key hkey hkey' => ?_
  obtain ⟨listed, hlisted, rfl⟩ := List.mem_map.mp hkey
  obtain ⟨listed', hlisted', heq⟩ := List.mem_map.mp hkey'
  rw [← (operationsOf_path hlisted).1, ← (operationsOf_path hlisted').1] at hne
  exact hne (congrArg Prod.fst heq).symm

theorem mounted_injective (listenPath : String) {path path' : String}
    (h : path.toList.head? = some '/') (h' : path'.toList.head? = some '/')
    (heq : mounted listenPath path = mounted listenPath path') : path = path' := by
  have hnil {path : String} (h : path.toList.head? = some '/') : path.toList ≠ [] := by
    intro hnil
    rw [hnil] at h
    cases h
  simp only [mounted] at heq
  split at heq
  · rename_i hroot
    split at heq
    · rename_i hroot'
      rw [hroot, hroot']
    · have hlist := congrArg String.toList heq
      rw [String.toList_append] at hlist
      exact absurd (List.self_eq_append_right.mp hlist) (hnil h')
  · split at heq
    · have hlist := congrArg String.toList heq
      rw [String.toList_append] at hlist
      exact absurd (by simpa using hlist) (hnil h)
    · have hlist := congrArg String.toList heq
      rw [String.toList_append, String.toList_append, List.append_cancel_left_eq] at hlist
      exact String.toList_injective hlist

end Operations

/-! ## The selection in the stamped document -/

section Selection

variable [DecidableEq ι] {doc : Document ι} {deployment : AgentDeployment} {proxy : Proxy}
  {stamped : StampedDocument ι} {method : OperationMethod} {maxOperations : Option ℕ}

omit [DecidableEq ι] in
theorem addPlugin_settings {role name : String} {settings : PluginSettings} {trigger : Bool}
    {plugin : PluginWrite} (h : addPlugin proxy deployment role name settings trigger = .ok plugin)
    :
    plugin.settings = settings := by
  simp only [addPlugin, bind, Except.bind] at h
  split at h
  · cases h
  · cases h
    rfl

omit [DecidableEq ι] in
/-- The plugins in their order, by their settings. -/
theorem stampPlugins_settings {routes : List Route} {plugins : List PluginWrite}
    (h : stampPlugins proxy deployment routes = .ok plugins) :
    ∃ bypass endpoint redis, plugins.map PluginWrite.settings =
      [.openapi_validator routes bypass, .mcp_gateway endpoint (toolPolicy deployment),
        .ai_tool_governor (governorPolicy deployment), .ai_prompt_shield,
        .rate_limiting endpoint redis] := by
  simp only [stampPlugins, bind, Except.bind] at h
  split at h
  · cases h
  rename_i validator hvalidator
  split at h
  · cases h
  rename_i mcp hmcp
  split at h
  · cases h
  rename_i governor hgovernor
  split at h
  · cases h
  rename_i shield hshield
  split at h
  · cases h
  rename_i budget hbudget
  cases h
  simp only [List.map_cons, List.map_nil, addPlugin_settings hvalidator, addPlugin_settings hmcp,
    addPlugin_settings hgovernor, addPlugin_settings hshield, addPlugin_settings hbudget]
  exact ⟨_, _, _, rfl⟩

/-- The stamp, taken apart. -/
theorem stampAgentDocument_ok (h : stampAgentDocument doc proxy deployment = .ok stamped) :
    ∃ items, agentPathItemEntries doc = .ok items ∧
      stamped.members = stampedRoot doc ∧
      stamped.paths = items.map (fun entry =>
        (entry.1, stampPathItem doc deployment.agents entry.1 (mergePathItem doc entry.2))) ∧
      stamped.routes = (mergedOperations doc (items.map fun entry =>
        (entry.1, mergePathItem doc entry.2))).map (routeOf proxy.listen_path) ∧
      stamped.toolPolicy = toolPolicy deployment := by
  rw [stampAgentDocument, agentPathItems] at h
  cases hitems : agentPathItemEntries doc with
  | error failure =>
    rw [hitems] at h
    cases h
  | ok items =>
    rw [hitems] at h
    simp only [Except.map, bind, Except.bind] at h
    split at h
    · cases h
    rename_i plugins hplugins
    cases h
    obtain ⟨bypass, endpoint, redis, hsettings⟩ := stampPlugins_settings hplugins
    have hflat {α : Type} (f : PluginSettings → List α) :
        plugins.flatMap (fun plugin => f plugin.settings) =
          (plugins.map PluginWrite.settings).flatMap f := by
      rw [List.flatMap_map]
    refine ⟨items, rfl, rfl, by rw [List.map_map]; rfl, ?_, ?_⟩
    · rw [StampedDocument.routes, hflat, hsettings]
      simp [PluginSettings.routes, stampRoutes]
    · rw [StampedDocument.toolPolicy, hflat, hsettings]
      simp [PluginSettings.tools]

omit [DecidableEq ι] in
theorem stampMember_operation {agents : ApiAgents} {path : String} {value : Value ι} {operation : ι}
    (h : doc.record? (some value) = some operation) :
    stampMember doc agents path (method.key, value) =
      .operation ⟨cleanMembers doc operation, exposureMark agents (upper method) path⟩ := by
  have hmethod : OPENAPI_OPERATION_METHODS.find? (fun other => other.key == method.key) =
      some method := by
    cases method <;> decide
  simp only [stampMember, hmethod, h]

omit [DecidableEq ι] in
theorem stampMember_kept {agents : ApiAgents} {path : String} {value : Value ι}
    (h : doc.record? (some value) = none) :
    stampMember doc agents path (method.key, value) = .kept value := by
  rw [stampMember, h]
  cases OPENAPI_OPERATION_METHODS.find? fun other => other.key == method.key <;> rfl

omit [DecidableEq ι] in
theorem mem_stampPathItem {agents : ApiAgents} {path : String} {item : Members ι}
    {member : StampedMember ι} : (method.key, member) ∈ stampPathItem doc agents path item ↔
      ∃ value, item.get method.key = some value ∧
        stampMember doc agents path (method.key, value) = member := by
  have hservers : (method.key != "servers") = true := by cases method <;> decide
  simp only [stampPathItem, List.mem_map, List.mem_filter]
  constructor
  · rintro ⟨⟨key, value⟩, ⟨hmem, -⟩, heq⟩
    cases heq
    exact ⟨value, Members.get_of_mem hmem, rfl⟩
  · rintro ⟨value, hget, rfl⟩
    exact ⟨(method.key, value), ⟨Members.mem_of_get hget, hservers⟩, rfl⟩

theorem mem_fromEntries {α : Type} {entries : List (String × α)} (h : (entries.map Prod.fst).Nodup)
    (entry : String × α) : entry ∈ fromEntries entries ↔ entry ∈ entries := by
  simp only [fromEntries, List.mem_filterMap, List.mem_eraseDups]
  constructor
  · rintro ⟨name, -, hfind⟩
    exact List.mem_reverse.mp (List.mem_of_find?_eq_some hfind)
  · intro hmem
    refine ⟨entry.1, List.mem_map_of_mem hmem, ?_⟩
    cases hfind : entries.reverse.find? fun other => other.1 == entry.1 with
    | none => simpa using (List.find?_eq_none.mp hfind) entry (List.mem_reverse.mpr hmem)
    | some other =>
      have hother := List.mem_reverse.mp (List.mem_of_find?_eq_some hfind)
      have hkey : other.1 = entry.1 := by simpa using List.find?_some hfind
      rw [List.inj_on_of_nodup_map h hother hmem hkey]

variable (doc) in
/-- A stamped document exposes the operations that are selected, each as its
tool, and no other; its routes are the operations of the resolved document; and
no mark of the upload is left on an operation or at the root. -/
structure StampsSelection (proxy : Proxy) (deployment : AgentDeployment)
    (stamped : StampedDocument ι) : Prop where
  marked : ∀ path item, (path, item) ∈ stamped.paths → ∀ (method : OperationMethod) member,
    (method.key, member) ∈ item → match member with
    | .kept value => doc.record? (some value) = none
    | .operation operation => operation.mark ≠ .hidden ↔
        ∃ tool ∈ deployment.agents.operations, tool.method = upper method ∧ tool.path = path
  exposed : ∀ tool ∈ deployment.agents.operations, ∃ item, ∃ method : OperationMethod, ∃ operation,
    (tool.path, item) ∈ stamped.paths ∧ upper method = tool.method ∧
      (method.key, .operation operation) ∈ item ∧ operation.mark =
        .exposed tool.name tool.description (isReadOnlyAgentMethod tool.method)
  allowed : ∀ name groups, (name, groups) ∈ stamped.toolPolicy ↔
    ∃ tool ∈ deployment.agents.operations,
      name = agentToolName deployment.slug tool ∧ groups = toolGroups deployment tool
  listed : ∃ operations, agentOperations doc none = .ok operations ∧
    stamped.routes.map (fun route => (route.method, route.path_template)) =
      operations.map (fun listed => (upper listed.method, mounted proxy.listen_path listed.path)) ∧
    (stamped.routes.map fun route => (route.method, route.path_template)).Nodup
  clean : ∀ path item, (path, item) ∈ stamped.paths → ∀ (method : OperationMethod) operation,
    (method.key, .operation operation) ∈ item → ∀ member ∈ operation.members,
      ¬ "x-ferrum-".toList.isPrefixOf member.1.toList
  root : "x-ferrum-mcp" ∉ stamped.members.map Prod.fst

omit [DecidableEq ι] in
/-- An operation of the resolved document stands in its path's copy. -/
theorem mem_mergedOperations {items : List (String × AgentPathItem ι)} {listed : ListedOperation ι} :
    listed ∈ mergedOperations doc (items.map fun entry => (entry.1, mergePathItem doc entry.2)) ↔
      ∃ item, (listed.path, item) ∈ items ∧ ∃ value,
        (mergePathItem doc item).get listed.method.key = some value ∧
          doc.record? (some value) = some listed.operation := by
  simp only [mergedOperations, List.flatMap_map, List.mem_flatMap]
  constructor
  · rintro ⟨⟨path, item⟩, hmem, hlisted⟩
    obtain ⟨rfl, hrecord⟩ := operationsOf_path hlisted
    refine ⟨item, hmem, ?_⟩
    cases hget : (mergePathItem doc item).get listed.method.key with
    | none =>
      rw [hget] at hrecord
      cases hrecord
    | some value =>
      rw [hget] at hrecord
      exact ⟨value, rfl, hrecord⟩
  · rintro ⟨item, hmem, value, hget, hrecord⟩
    refine ⟨(listed.path, item), hmem, List.mem_filterMap.mpr ⟨listed.method, ?_, ?_⟩⟩
    · cases listed.method <;> decide
    · rw [hget, hrecord]
      rfl

/-- What `agentOperations` lists is what the copies hold. -/
theorem agentOperations_merged {items : List (String × AgentPathItem ι)}
    {operations : List (ListedOperation ι)} (hitems : agentPathItemEntries doc = .ok items)
    (h : agentOperations doc maxOperations = .ok operations) :
    operations = mergedOperations doc (items.map fun entry => (entry.1, mergePathItem doc entry.2)) := by
  rw [mergedOperations_map]
  simp only [agentOperations, hitems] at h
  split at h
  · cases h
  · cases h
    rfl

variable [Fintype ι] {digest : Document ι → List AgentToolSelection → ℕ → String}
  {sha256 : String → String}

theorem documentReader_operations {checked : List AgentOperation}
    (h : (documentReader digest sha256).agentOperations doc maxOperations = .ok checked) :
    ∃ operations, agentOperations doc maxOperations = .ok operations ∧
      checked = operations.map agentOperation := by
  simp only [documentReader] at h
  cases hoperations : agentOperations doc maxOperations with
  | error error =>
    rw [hoperations] at h
    cases h
  | ok operations =>
    rw [hoperations] at h
    cases h
    exact ⟨operations, rfl, rfl⟩

/-- A selection that was accepted is exactly what the stamp exposes. -/
theorem stampAgentDocument_selection {enforcement : Publishing.Level} {requestable : Bool}
    {methods : Option (List HttpMethod)} {listenPaths : Option (List String)}
    (hvalid : validateAgents (documentReader digest sha256) (some deployment.agents) doc enforcement
      requestable methods listenPaths maxOperations = .ok ())
    (h : stampAgentDocument doc proxy deployment = .ok stamped) :
    StampsSelection doc proxy deployment stamped := by
  obtain ⟨items, hitems, hmembers, hpaths, hroutes, hpolicy⟩ := stampAgentDocument_ok h
  obtain ⟨checked, hchecked, hcheck, -⟩ := validateAgents_checks hvalid
  obtain ⟨hkeys, -⟩ := checkSelections_nodup hcheck
  obtain ⟨hnames, -, hfound⟩ := checkSelections_tools hcheck
  have hpath {path : String} {item : List (String × StampedMember ι)}
      (hmem : (path, item) ∈ stamped.paths) :
      ∃ resolved, (path, resolved) ∈ items ∧
        item = stampPathItem doc deployment.agents path (mergePathItem doc resolved) := by
    rw [hpaths] at hmem
    obtain ⟨⟨path', resolved⟩, hresolved, heq⟩ := List.mem_map.mp hmem
    cases heq
    exact ⟨resolved, hresolved, rfl⟩
  constructor
  · intro path item hmem method member hmember
    obtain ⟨resolved, -, rfl⟩ := hpath hmem
    obtain ⟨value, -, rfl⟩ := mem_stampPathItem.mp hmember
    cases hrecord : doc.record? (some value) with
    | none =>
      rw [stampMember_kept hrecord]
      exact hrecord
    | some operation =>
      rw [stampMember_operation hrecord]
      dsimp only
      rw [exposureMark]
      cases htool : toolOf deployment.agents (upper method) path with
      | none => simpa using toolOf_eq_none.mp htool
      | some tool =>
        obtain ⟨hin, hmethod, hpath⟩ := toolOf_spec htool
        exact ⟨fun _ => ⟨tool, hin, hmethod, hpath⟩, fun _ heq => by cases heq⟩
  · intro tool htool
    obtain ⟨operation, hoperation, hkey⟩ := hfound tool htool
    obtain ⟨hmethod, htoolPath⟩ := operationKey_injective hkey
    obtain ⟨operations, hoperations, rfl⟩ := documentReader_operations hchecked
    obtain ⟨listed, hlisted, rfl⟩ := List.mem_map.mp hoperation
    rw [agentOperations_merged hitems hoperations] at hlisted
    obtain ⟨item, hitem, value, hget, hrecord⟩ := mem_mergedOperations.mp hlisted
    have htoolOf : toolOf deployment.agents (upper listed.method) listed.path = some tool := by
      have hfind := toolOf_of_mem hkeys htool
      rw [← htoolPath, ← hmethod] at hfind
      exact hfind
    have hmember : (listed.method.key, StampedMember.operation ⟨cleanMembers doc listed.operation,
        exposureMark deployment.agents (upper listed.method) listed.path⟩) ∈
          stampPathItem doc deployment.agents listed.path (mergePathItem doc item) :=
      mem_stampPathItem.mpr ⟨value, hget, stampMember_operation hrecord⟩
    refine ⟨_, listed.method, _, ?_, hmethod, hmember, ?_⟩
    · rw [hpaths, ← htoolPath]
      exact List.mem_map.mpr ⟨(listed.path, item), hitem, rfl⟩
    · rw [← hmethod]
      simp only [exposureMark]
      rw [htoolOf]
      rfl
  · intro name groups
    have hpolicyNames : ((deployment.agents.operations.map fun tool =>
        (agentToolName deployment.slug tool, toolGroups deployment tool)).map Prod.fst).Nodup := by
      rw [List.map_map]
      refine List.pairwise_map.mpr ((List.pairwise_map.mp hnames).imp fun {tool tool'} hne heq => hne ?_)
      have hlist := congrArg String.toList heq
      simp only [Function.comp_apply, agentToolName, String.toList_append,
        List.append_cancel_left_eq] at hlist
      exact String.toList_injective hlist
    rw [hpolicy, toolPolicy, mem_fromEntries hpolicyNames, List.mem_map]
    simp only [Prod.mk.injEq, eq_comm]
  · have hall : agentOperations doc none = .ok (mergedOperations doc (items.map fun entry =>
        (entry.1, mergePathItem doc entry.2))) := by
      rw [mergedOperations_map]
      simp only [agentOperations, hitems]
      rfl
    refine ⟨_, hall, by rw [hroutes, List.map_map]; rfl, ?_⟩
    obtain ⟨hsublist, hslash⟩ := resolveEntries_paths hitems
    have hdistinct : ((items.map fun entry => (entry.1, mergePathItem doc entry.2)).map Prod.fst).Nodup := by
      rw [List.map_map]
      exact (pathEntries_distinct doc).sublist hsublist
    rw [hroutes, List.map_map]
    refine List.pairwise_map.mpr ((List.pairwise_map.mp (mergedOperations_nodup doc hdistinct)).imp_of_mem
      fun {listed listed'} hmem hmem' hne heq => hne ?_)
    obtain ⟨item, hitem, -⟩ := mem_mergedOperations.mp hmem
    obtain ⟨item', hitem', -⟩ := mem_mergedOperations.mp hmem'
    simp only [Function.comp_apply, routeOf, Prod.mk.injEq] at heq
    exact Prod.ext (mounted_injective proxy.listen_path (hslash _ hitem) (hslash _ hitem') heq.2)
      (upper_injective heq.1)
  · intro path item hmem method operation hoperation member hin
    obtain ⟨resolved, -, rfl⟩ := hpath hmem
    obtain ⟨value, -, hvalue⟩ := mem_stampPathItem.mp hoperation
    cases hrecord : doc.record? (some value) with
    | none =>
      rw [stampMember_kept hrecord] at hvalue
      cases hvalue
    | some id =>
      rw [stampMember_operation hrecord] at hvalue
      cases hvalue
      have := (List.mem_filter.mp hin).2
      simp_all
  · rw [hmembers, stampedRoot]
    split
    · simp
    · simp only [List.mem_map, List.mem_filter, not_exists, not_and]
      rintro ⟨key, value⟩ ⟨-, hkept⟩ rfl
      simp at hkept

omit [DecidableEq ι] [Fintype ι] in
theorem sum_mergedOperations (items : List (String × AgentPathItem ι)) (f : ListedOperation ι → ℕ) :
    ((mergedOperations doc (items.map fun entry => (entry.1, mergePathItem doc entry.2))).map f).sum =
      (items.map fun entry =>
        ((operationsOf doc entry.1 (agentPathItemMember doc entry.2)).map f).sum).sum := by
  rw [mergedOperations_map]
  induction items with
  | nil => rfl
  | cons entry items ih =>
    rw [List.flatMap_cons, List.map_append, List.sum_append, ih, List.map_cons, List.sum_cons]

/-- The bound that was computed beforehand is no less than what the paths take. -/
theorem stampAgentDocument_bytes {listenPaths : List String} {bound : ℕ}
    (h : stampAgentDocument doc proxy deployment = .ok stamped)
    (hbound : stampedAgentDocumentBytes doc listenPaths deployment.agents = .ok bound) :
    ∃ bytes, stampedPathsBytes doc stamped.paths = some bytes ∧ bytes ≤ bound := by
  obtain ⟨items, hitems, -, hpaths, -⟩ := stampAgentDocument_ok h
  simp only [stampedAgentDocumentBytes, bind, Except.bind] at hbound
  split at hbound
  · cases hbound
  rename_i first hfirst
  split at hbound
  · cases hbound
  rename_i second hsecond
  obtain ⟨items', hitems', hknown, hsecond⟩ := chargePaths_ok hsecond
  obtain rfl : items' = items := by
    rw [agentPathItemEntries, hitems', Except.ok.injEq] at hitems
    exact hitems
  have hfirst := (charge_ok hfirst).2
  have htools : bound = second + (deployment.agents.operations.map
      (toolBytes ((listenPaths.map jsonStringBytes).foldl max 0))).sum := by
    rw [(charge_ok hbound).2, List.map_map]
    rfl
  have hscaffold : scaffoldBytes = 36 := by decide
  have hcopy (entry : String × AgentPathItem ι) (hmem : entry ∈ items') :
      stampedItemBytes doc (stampPathItem doc deployment.agents entry.1 (mergePathItem doc entry.2)) =
          some ((stampedItemBytes doc (stampPathItem doc deployment.agents entry.1
            (mergePathItem doc entry.2))).getD 0) ∧
        jsonStringBytes entry.1 + 2 + (stampedItemBytes doc (stampPathItem doc deployment.agents
            entry.1 (mergePathItem doc entry.2))).getD 0 ≤
          ((pathCosts doc listenPaths entry.1 entry.2).map (·.getD 0)).sum +
            ((operationsOf doc entry.1 (agentPathItemMember doc entry.2)).map
              (toolShare deployment.agents)).sum := by
    obtain ⟨bytes, hbytes, hle⟩ := pathCosts_bytes deployment.agents (hknown entry hmem)
    rw [hbytes]
    exact ⟨rfl, hle⟩
  refine ⟨recordBytes (items'.map fun entry => (entry.1, (stampedItemBytes doc
    (stampPathItem doc deployment.agents entry.1 (mergePathItem doc entry.2))).getD 0)), ?_, ?_⟩
  · rw [stampedPathsBytes, hpaths, List.mapM_map, mapM_some fun entry hmem => ?_]
    · rfl
    · rw [Function.comp_apply]
      dsimp only
      rw [(hcopy entry hmem).1]
      rfl
  · have hrecord := (recordBytes_le (items'.map fun entry => (entry.1, (stampedItemBytes doc
      (stampPathItem doc deployment.agents entry.1 (mergePathItem doc entry.2))).getD 0))).2
    have hsum : membersBytes (items'.map fun entry => (entry.1, (stampedItemBytes doc
        (stampPathItem doc deployment.agents entry.1 (mergePathItem doc entry.2))).getD 0)) ≤
          (items'.map fun entry => ((pathCosts doc listenPaths entry.1 entry.2).map (·.getD 0)).sum).sum +
            (items'.map fun entry => ((operationsOf doc entry.1
              (agentPathItemMember doc entry.2)).map (toolShare deployment.agents)).sum).sum := by
      rw [membersBytes, List.map_map, ← List.sum_map_add]
      exact map_le_map fun entry hmem => (hcopy entry hmem).2
    have hdistinct : ((items'.map fun entry => (entry.1, mergePathItem doc entry.2)).map Prod.fst).Nodup := by
      rw [List.map_map]
      exact (pathEntries_distinct doc).sublist (resolveEntries_paths hitems').1
    have hshare := toolShare_le deployment.agents ((listenPaths.map jsonStringBytes).foldl max 0)
      (mergedOperations_nodup doc hdistinct)
    rw [sum_mergedOperations] at hshare
    simp only [List.map_cons, List.sum_cons, Option.getD_some, hscaffold] at hfirst
    omega

/-- The stamped document exposes the selection and nothing else, and its paths
are no larger than was charged for them. -/
theorem stampAgentDocument_exact {proxy : Proxy} {deployment : AgentDeployment}
    {stamped : StampedDocument ι} {enforcement : Publishing.Level} {requestable : Bool}
    {methods : Option (List HttpMethod)} {listenPaths : Option (List String)} {maxOperations : Option ℕ}
    (hvalid : validateAgents (documentReader digest sha256) (some deployment.agents) doc enforcement
      requestable methods listenPaths maxOperations = .ok ())
    (h : stampAgentDocument doc proxy deployment = .ok stamped) :
    StampsSelection doc proxy deployment stamped ∧ ∀ listenPaths bound,
      stampedAgentDocumentBytes doc listenPaths deployment.agents = .ok bound →
        ∃ bytes, stampedPathsBytes doc stamped.paths = some bytes ∧ bytes ≤ bound :=
  ⟨stampAgentDocument_selection hvalid h, fun _ _ hbound => stampAgentDocument_bytes h hbound⟩

end Selection

/-! An upload whose two paths share a referenced Path Item, one of its operations marked by its own
member. -/

def markedDocument : Document (Fin 8) where
  nodes
    | 0 => .record ⟨[("paths", .node 1), ("components", .node 5), ("x-ferrum-mcp", .bool true)],
        by decide⟩
    | 1 => .record ⟨[("/items", .node 2), ("/items/{id}", .node 2)], by decide⟩
    | 2 => .record ⟨[("$ref", .string "#/components/pathItems/Items")], by decide⟩
    | 3 => .record ⟨[("summary", .string "List")], by decide⟩
    | 4 => .record ⟨[("x-ferrum-mcp", .bool true)], by decide⟩
    | 5 => .record ⟨[("pathItems", .node 6)], by decide⟩
    | 6 => .record ⟨[("Items", .node 7)], by decide⟩
    | 7 => .record ⟨[("get", .node 3), ("post", .node 4)], by decide⟩
  root := .node 0

def listTool : AgentTool := ⟨⟨.GET, "/items", "list", "List the items"⟩, some 0, none⟩

def putTool : AgentTool := ⟨⟨.POST, "/items/{id}", "put", "Put an item"⟩, some 1, none⟩

def markedDeployment : AgentDeployment where
  apiId := ⟨"shop", by decide, by decide⟩
  slug := "orders"
  agents := ⟨[listTool, putTool]⟩
  toolId id := if id = 0 then ⟨"list", by decide, by decide⟩ else ⟨"put", by decide, by decide⟩
  redis := false
  live := none
  specId := none

theorem marked_valid : validateAgents (documentReader (fun _ _ _ => "") id)
    (some markedDeployment.agents) markedDocument .routes true none (some ["/nexus/orders"])
      (some MAX_SPEC_OPERATIONS) = .ok () := by
  decide +kernel

theorem exists_ok {ε α : Type} {x : Except ε α} (h : x.toOption.isSome = true) : ∃ a, x = .ok a := by
  cases x with
  | error => cases h
  | ok a => exact ⟨a, rfl⟩

theorem stampAgentDocument_exact_marked : ∃ stamped bytes,
    stampAgentDocument markedDocument ⟨"proxy", "/nexus/orders"⟩ markedDeployment = .ok stamped ∧
      StampsSelection markedDocument ⟨"proxy", "/nexus/orders"⟩ markedDeployment stamped ∧
      stampedPathsBytes markedDocument stamped.paths = some bytes := by
  obtain ⟨stamped, hstamped⟩ := exists_ok (x := stampAgentDocument markedDocument
    ⟨"proxy", "/nexus/orders"⟩ markedDeployment) (by decide +kernel)
  obtain ⟨bound, hbound⟩ := exists_ok (x := stampedAgentDocumentBytes markedDocument
    ["/nexus/orders"] markedDeployment.agents) (by decide +kernel)
  obtain ⟨hselection, hbytes⟩ := stampAgentDocument_exact marked_valid hstamped
  obtain ⟨bytes, hbytes, -⟩ := hbytes ["/nexus/orders"] bound hbound
  exact ⟨stamped, bytes, hstamped, hselection, hbytes⟩

end FerrumNexus.Agents
