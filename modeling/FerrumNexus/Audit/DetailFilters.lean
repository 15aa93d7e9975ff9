import FerrumNexus.Catalog.Store
import FerrumNexus.Formats.JsonText
import FerrumNexus.Sequences.OrderedMap
import FerrumNexus.Sequences.Wildcards

/-!
# Filtering the audit log by details

The details of an audit row are a column of JSON text, and `auditWhere` looks a
detail up in it with `LIKE`. A member that stands deeper in the details, or
whose letters are of the other case, is found as well, and `_` and `%` of the
filter are wildcards.
-/
namespace FerrumNexus.Audit

open Catalog Formats Sequences

variable {ν : Type}

/-! ## Rows and filters -/

/-- `AuditLogRecord`. -/
structure AuditLogRecord (ν : Type) where
  id : ℕ
  actor_user_id : Option String
  actor_role : Option String
  action : String
  target_type : String
  target_id : Option String
  details : Json ν
  ip : Option String
  created_at : ℕ

/-- A row of `audit_logs`. -/
structure AuditRow where
  id : ℕ
  actor_user_id : Option String
  actor_role : Option String
  action : String
  target_type : String
  target_id : Option String
  details_json : List Char
  ip : Option String
  created_at : ℕ
  deriving DecidableEq

/-- What a filter can say of a detail. -/
inductive DetailValue
  | text (value : String)
  | flag (value : Bool)
  deriving DecidableEq

def DetailValue.json : DetailValue → Json ν
  | .text value => .string value
  | .flag value => .bool value

/-- `AuditLogFilter`. Its `from` and `to` are `since` and `upTo`. -/
structure AuditLogFilter where
  actor_user_id : Option String := none
  action : Option String := none
  actions : Option (List String) := none
  target_type : Option String := none
  target_id : Option String := none
  details : OrderedMap String DetailValue := .empty
  since : Option ℕ := none
  upTo : Option ℕ := none

section Store

variable (format : NumberFormat ν)

/-- `encodeJson`, and the `'{}'` of a row without details. -/
def encodeJson : Json ν → List Char
  | .null => ['\x7b', '\x7d']
  | value => stringify format value

/-- `json(value, {})`. -/
def json (text : List Char) : Json ν :=
  match parse format text with
  | none => .object []
  | some .null => .object []
  | some value => value

/-- `auditLogs.create`. -/
def createAuditLog (log : AuditLogRecord ν) : AuditRow :=
  ⟨log.id, log.actor_user_id, log.actor_role, log.action, log.target_type, log.target_id,
    encodeJson format log.details, log.ip, log.created_at⟩

def mapAuditLog (row : AuditRow) : AuditLogRecord ν :=
  ⟨row.id, row.actor_user_id, row.actor_role, row.action, row.target_type, row.target_id,
    json format row.details_json, row.ip, row.created_at⟩

/-- `"${key}":${JSON.stringify(value)}`, without the `%` around it. -/
def detailText (key : String) (value : DetailValue) : List Char :=
  '"' :: (key.toList ++ ['"', ':'] ++ stringify format value.json)

def detailPattern (key : String) (value : DetailValue) : List Char :=
  '%' :: (detailText format key value ++ ['%'])

/-- `WhereBuilder.add`: a condition, where there is a value for it. -/
def add {α : Type} (value : Option α) (condition : α → AuditRow → Bool) (row : AuditRow) : Bool :=
  value.all fun value => condition value row

/-- The conditions of `auditWhere` on the columns that are not JSON. -/
def columnsMatch (filter : AuditLogFilter) (row : AuditRow) : Bool :=
  add filter.actor_user_id (fun id row => row.actor_user_id == some id) row &&
  add filter.action (fun action row => row.action == action) row &&
  add filter.target_type (fun kind row => row.target_type == kind) row &&
  add filter.target_id (fun id row => row.target_id == some id) row &&
  add filter.since (fun time row => decide (time ≤ row.created_at)) row &&
  add filter.upTo (fun time row => decide (row.created_at < time)) row &&
  add filter.actions (fun actions row => actions.contains row.action) row

def detailsMatch (filter : AuditLogFilter) (row : AuditRow) : Bool :=
  filter.details.entries.all fun entry =>
    like (detailPattern format entry.1 entry.2) row.details_json

def auditWhere (filter : AuditLogFilter) (row : AuditRow) : Bool :=
  columnsMatch filter row && detailsMatch format filter row

/-- `auditLogs.list`. -/
def listAuditLogs (rows : List AuditRow) (filter : AuditLogFilter) (options : ListOptions) :
    Paginated (AuditLogRecord ν) :=
  let found := pageOf AuditRow.created_at AuditRow.id (rows.filter (auditWhere format filter))
    (clampPageSize options.limit) (clampOffset options.offset)
  ⟨found.items.map (mapAuditLog format), found.total⟩

/-- `auditLogs.count`. -/
def countAuditLogs (rows : List AuditRow) (filter : AuditLogFilter) : ℕ :=
  rows.countP (auditWhere format filter)

end Store

/-! ## What the filter asks for -/

def DetailValue.is : DetailValue → Json ν → Bool
  | .text value, .string found => found == value
  | .flag value, .bool found => found == value
  | _, _ => false

/-- The details are an object that has each member, with its value, at the top. -/
def hasDetails (filter : AuditLogFilter) : Json ν → Bool
  | .object members => filter.details.entries.all fun entry =>
      (member members entry.1).any entry.2.is
  | _ => false

def asksFor (format : NumberFormat ν) (filter : AuditLogFilter) (log : AuditLogRecord ν) : Bool :=
  columnsMatch filter (createAuditLog format log) && hasDetails filter log.details

/-- The list and the count are of the rows that have the details, and of no other. -/
def SelectsExactly (format : NumberFormat ν) (logs : List (AuditLogRecord ν))
    (filter : AuditLogFilter) : Prop :=
  (∀ options, listAuditLogs format (logs.map (createAuditLog format)) filter options =
    pageOf AuditLogRecord.created_at AuditLogRecord.id (logs.filter (asksFor format filter))
      (clampPageSize options.limit) (clampOffset options.offset)) ∧
  countAuditLogs format (logs.map (createAuditLog format)) filter =
    logs.countP (asksFor format filter)

/-- Details as they are recorded: an object, and no object in it names a member twice. -/
def AuditLogRecord.Recorded (log : AuditLogRecord ν) : Prop :=
  log.details.Keyed ∧ ∃ members, log.details = .object members

section Selection

variable {format : NumberFormat ν} {filter : AuditLogFilter}

theorem DetailValue.is_iff {value : DetailValue} {found : Json ν} :
    value.is found = true ↔ found = value.json := by
  cases value <;> cases found <;> simp [DetailValue.is, DetailValue.json]

theorem encodeJson_object (members : List (String × Json ν)) :
    encodeJson format (.object members) = stringify format (.object members) := rfl

variable {log : AuditLogRecord ν} {members : List (String × Json ν)}

theorem mapAuditLog_create (h : log.Recorded) :
    mapAuditLog format (createAuditLog format log) = log := by
  obtain ⟨hkeyed, members, hmembers⟩ := h
  obtain ⟨id, actor, role, action, kind, target, details, ip, time⟩ := log
  obtain rfl : details = .object members := hmembers
  have hparsed := parse_stringify format hkeyed
  simp only [mapAuditLog, createAuditLog, encodeJson_object, json, hparsed]

/-- A page of rows that were encoded is the page of the rows, encoded. -/
theorem pageOf_map {α β : Type} (f : α → β) (createdAt id : β → ℕ) (rows : List α)
    (limit offset : ℕ) :
    pageOf createdAt id (rows.map f) limit offset =
      ⟨(pageOf (fun row => createdAt (f row)) (fun row => id (f row)) rows limit offset).items.map f,
        rows.length⟩ := by
  have hsort := @List.map_mergeSort _ _
    (fun a b => decide (createdAt (f b) < createdAt (f a)) ||
      (createdAt (f a) == createdAt (f b) && decide (id (f b) ≤ id (f a))))
    (fun a b => decide (createdAt b < createdAt a) ||
      (createdAt a == createdAt b && decide (id b ≤ id a))) f rows fun _ _ _ _ => rfl
  simp only [pageOf, ← hsort, List.map_take, List.map_drop, List.length_map]

/-- Rows that are told apart as asked are selected exactly. -/
theorem selectsExactly_of_forall {logs : List (AuditLogRecord ν)}
    (hrecorded : ∀ log ∈ logs, log.Recorded)
    (h : ∀ log ∈ logs, auditWhere format filter (createAuditLog format log) =
      asksFor format filter log) : SelectsExactly format logs filter := by
  have hfilter : (logs.map (createAuditLog format)).filter (auditWhere format filter) =
      (logs.filter (asksFor format filter)).map (createAuditLog format) := by
    rw [List.filter_map]
    exact congrArg _ (List.filter_congr h)
  constructor
  · intro options
    simp only [listAuditLogs, hfilter, pageOf_map]
    have hitems : ∀ log ∈ (pageOf AuditLogRecord.created_at AuditLogRecord.id
        (logs.filter (asksFor format filter)) (clampPageSize options.limit)
        (clampOffset options.offset)).items, log.Recorded := by
      intro log hlog
      have hfound := List.mem_mergeSort.mp (List.mem_of_mem_drop (List.mem_of_mem_take hlog))
      exact hrecorded log (List.mem_filter.mp hfound).1
    have hback := List.map_congr_left fun log hlog =>
      @mapAuditLog_create _ format log (hitems log hlog)
    rw [List.map_map]
    exact congrArg (fun items => Paginated.mk items _) (hback.trans (List.map_id _))
  · rw [countAuditLogs, List.countP_map]
    exact List.countP_congr fun log hlog => by rw [← h log hlog]; rfl

/-- Counts of one list that agree, where what one test takes the other takes too. -/
theorem eq_of_countP_eq {α : Type} {p q : α → Bool} {xs : List α}
    (hle : ∀ x ∈ xs, q x = true → p x = true) (hcount : xs.countP p = xs.countP q) :
    ∀ x ∈ xs, p x = q x := by
  induction xs with
  | nil => exact fun x hx => absurd hx List.not_mem_nil
  | cons y ys ih =>
    have htail : ys.countP q ≤ ys.countP p :=
      List.countP_mono_left fun x hx => hle x (List.mem_cons_of_mem y hx)
    have hhead := hle y List.mem_cons_self
    rw [List.countP_cons, List.countP_cons] at hcount
    have hy : p y = q y := by
      cases hq : q y with
      | true => exact hhead hq
      | false =>
        cases hp : p y with
        | false => rfl
        | true =>
          simp only [hp, hq, if_true, Bool.false_eq_true, if_false] at hcount
          omega
    rw [hy] at hcount
    intro x hx
    rcases List.mem_cons.mp hx with rfl | hrest
    · exact hy
    · exact ih (fun z hz => hle z (List.mem_cons_of_mem y hz)) (by omega) x hrest

theorem auditWhere_of_selectsExactly (h : SelectsExactly format [log] filter) :
    auditWhere format filter (createAuditLog format log) = asksFor format filter log := by
  have hcount := h.2
  rw [countAuditLogs, List.map_singleton, List.countP_singleton, List.countP_singleton] at hcount
  cases hwhere : auditWhere format filter (createAuditLog format log) <;>
    cases hasks : asksFor format filter log <;> simp [hwhere, hasks] at hcount ⊢

/-! ## The text of a member -/

/-- A member's name and value stand in the text of its object. -/
theorem member_in_text {name : String} {value : Json ν} (h : (name, value) ∈ members) :
    (quote name ++ ':' :: stringify format value) <:+: stringify format (.object members) := by
  have hrest : ∀ ms : List (String × Json ν), (name, value) ∈ ms →
      (quote name ++ ':' :: stringify format value) <:+: stringifyMembers format ms := by
    intro ms hms
    induction ms with
    | nil => exact absurd hms List.not_mem_nil
    | cons first ms ih =>
      obtain ⟨other, v⟩ := first
      rw [stringifyMembers]
      rcases List.mem_cons.mp hms with heq | htail
      · obtain ⟨rfl, rfl⟩ := Prod.mk.inj heq
        refine ⟨[','], stringifyMembers format ms, ?_⟩
        simp
      · obtain ⟨front, back, hfront⟩ := ih htail
        refine ⟨',' :: (quote other ++ ':' :: (stringify format v ++ front)), back, ?_⟩
        rw [← hfront]
        simp
  cases members with
  | nil => exact absurd h List.not_mem_nil
  | cons first ms =>
    obtain ⟨other, v⟩ := first
    rw [stringify]
    rcases List.mem_cons.mp h with heq | htail
    · obtain ⟨rfl, rfl⟩ := Prod.mk.inj heq
      refine ⟨['\x7b'], stringifyMembers format ms, ?_⟩
      simp
    · obtain ⟨front, back, hfront⟩ := hrest ms htail
      refine ⟨'\x7b' :: (quote other ++ ':' :: (stringify format v ++ front)), back, ?_⟩
      rw [← hfront]
      simp

theorem mem_of_member {name : String} {value : Json ν} (h : member members name = some value) :
    (name, value) ∈ members := by
  obtain ⟨entry, hfind, rfl⟩ := Option.map_eq_some_iff.mp h
  have hname : entry.1 = name := by simpa using List.find?_some hfind
  subst hname
  exact List.mem_of_find?_eq_some hfind

theorem member_of_mem (hnodup : (members.map Prod.fst).Nodup) {name : String} {value : Json ν}
    (h : (name, value) ∈ members) :
    member members name = some value := by
  have hget : (OrderedMap.mk members hnodup).get name = some value := OrderedMap.get_eq_some.mpr h
  exact hget

/-- Nothing in the key is escaped. -/
def Plain (key : String) : Prop := key.toList.flatMap quoteChar = key.toList

/-- With keys that are not escaped no row is missed. -/
theorem detailsMatch_of_hasDetails (hplain : ∀ entry ∈ filter.details.entries, Plain entry.1)
    (h : hasDetails filter log.details = true) :
    detailsMatch format filter (createAuditLog format log) = true := by
  obtain ⟨id, actor, role, action, kind, target, details, ip, time⟩ := log
  cases details with
  | object members =>
    apply List.all_eq_true.mpr
    intro entry hentry
    obtain ⟨value, hmember, his⟩ := (Option.any_eq_true _ _).mp (List.all_eq_true.mp h entry hentry)
    obtain rfl := DetailValue.is_iff.mp his
    apply like_of_mem
    have hpart := @member_in_text _ format _ _ _ (mem_of_member hmember)
    have hquote : quote entry.1 ++ ':' :: stringify format entry.2.json =
        detailText format entry.1 entry.2 := by
      rw [quote, hplain entry hentry, detailText]
      simp
    rwa [hquote] at hpart
  | null => exact absurd h Bool.false_ne_true
  | bool b => exact absurd h Bool.false_ne_true
  | number n => exact absurd h Bool.false_ne_true
  | string s => exact absurd h Bool.false_ne_true
  | array items => exact absurd h Bool.false_ne_true

/-! ## Details one level deeper -/

/-- The members that a filter asks for. -/
def askedFor (filter : AuditLogFilter) : List (String × Json ν) :=
  filter.details.entries.map fun entry => (entry.1, entry.2.json)

theorem askedFor_nodup : ((askedFor filter : List (String × Json ν)).map Prod.fst).Nodup := by
  rw [askedFor, List.map_map]
  exact filter.details.distinct

theorem keyedMembers_of_forall (h : ∀ entry ∈ members, entry.2.Keyed) : KeyedMembers members := by
  induction members with
  | nil => trivial
  | cons entry members ih =>
    exact ⟨h entry List.mem_cons_self, ih fun other hother => h other (List.mem_cons_of_mem _ hother)⟩

theorem askedFor_keyed : (Json.object (askedFor filter : List (String × Json ν))).Keyed := by
  refine ⟨askedFor_nodup, keyedMembers_of_forall fun entry hentry => ?_⟩
  obtain ⟨asked, -, rfl⟩ := List.mem_map.mp hentry
  cases hvalue : asked.2 <;> simp [DetailValue.json, Json.Keyed]

theorem hasDetails_askedFor :
    hasDetails filter (.object (askedFor filter : List (String × Json ν))) = true := by
  apply List.all_eq_true.mpr
  intro entry hentry
  have hmember := @member_of_mem ν _ askedFor_nodup _ _ (List.mem_map.mpr ⟨entry, hentry, rfl⟩)
  rw [hmember]
  exact DetailValue.is_iff.mpr rfl

/-- The patterns find a member one level deeper just as well. -/
theorem detailsMatch_nested (h : detailsMatch format filter
      (createAuditLog format { log with details := .object (askedFor filter) }) = true) :
    detailsMatch format filter
      (createAuditLog format { log with details := .object [("", .object (askedFor filter))] }) =
        true := by
  apply List.all_eq_true.mpr
  intro entry hentry
  apply like_of_part _ (List.all_eq_true.mp h entry hentry)
  obtain ⟨front, back, hnested⟩ := @member_in_text ν format
    [("", .object (askedFor filter))] "" (.object (askedFor filter)) List.mem_cons_self
  refine ⟨front ++ (quote "" ++ [':']), back, ?_⟩
  simpa [createAuditLog, encodeJson_object] using hnested

/-- A filter that names a detail takes a row for another's, or misses one. -/
theorem exists_not_selectsExactly (hnamed : filter.details.entries ≠ [])
    (hcolumns : columnsMatch filter (createAuditLog format log) = true) :
    ∃ other : AuditLogRecord ν, other.Recorded ∧ ¬SelectsExactly format [other] filter := by
  by_contra hall
  push Not at hall
  have htop := auditWhere_of_selectsExactly (hall { log with details := .object (askedFor filter) }
    ⟨askedFor_keyed, _, rfl⟩)
  have hdeep := auditWhere_of_selectsExactly
    (hall { log with details := .object [("", .object (askedFor filter))] }
      ⟨⟨List.nodup_singleton _, askedFor_keyed, trivial⟩, _, rfl⟩)
  have hcolumns' (details : Json ν) :
      columnsMatch filter (createAuditLog format { log with details := details }) = true := hcolumns
  simp only [auditWhere, asksFor, hcolumns', Bool.true_and] at htop hdeep
  rw [hasDetails_askedFor] at htop
  rw [detailsMatch_nested htop] at hdeep
  -- the only member at the top is an object
  obtain ⟨entry, hentry⟩ := List.exists_mem_of_ne_nil _ hnamed
  obtain ⟨value, hmember, his⟩ :=
    (Option.any_eq_true _ _).mp (List.all_eq_true.mp hdeep.symm entry hentry)
  obtain rfl := DetailValue.is_iff.mp his
  have hvalue := congrArg Prod.snd (List.mem_singleton.mp (mem_of_member hmember))
  cases hjson : entry.2 <;> simp [hjson, DetailValue.json] at hvalue

end Selection

/-! ## Which filters select exactly -/

/-- A filter selects exactly, whatever is recorded, when it names no detail or admits no row at all;
and, with keys that are not escaped, from given rows when no row that lacks a member reads as if it
had them all. -/
theorem details_select_exactly_iff (format : NumberFormat ν) (filter : AuditLogFilter) :
    ((∀ logs : List (AuditLogRecord ν), (∀ log ∈ logs, log.Recorded) →
        SelectsExactly format logs filter) ↔
      filter.details.entries = [] ∨
        ∀ log : AuditLogRecord ν, columnsMatch filter (createAuditLog format log) = false) ∧
    ((∀ entry ∈ filter.details.entries, Plain entry.1) →
      ∀ logs : List (AuditLogRecord ν), (∀ log ∈ logs, log.Recorded) →
        (SelectsExactly format logs filter ↔
          ∀ log ∈ logs, columnsMatch filter (createAuditLog format log) = true →
            hasDetails filter log.details = false →
            ∃ entry ∈ filter.details.entries,
              like (detailPattern format entry.1 entry.2) (encodeJson format log.details) =
                false)) := by
  refine ⟨⟨fun hall => ?_, fun hfilter logs hrecorded => ?_⟩, fun hplain logs hrecorded =>
    ⟨fun hexact log hlog hcolumns hlacks => ?_, fun hapart => ?_⟩⟩
  · by_contra hnot
    push Not at hnot
    obtain ⟨hnamed, log, hcolumns⟩ := hnot
    obtain ⟨other, hother, hwrong⟩ :=
      exists_not_selectsExactly hnamed (Bool.eq_true_of_not_eq_false hcolumns)
    exact hwrong (hall [other] (List.forall_mem_singleton.mpr hother))
  · apply selectsExactly_of_forall hrecorded
    intro log hlog
    rcases hfilter with hnone | hcolumns
    · obtain ⟨-, members, hmembers⟩ := hrecorded log hlog
      rw [auditWhere, asksFor, detailsMatch, hmembers, hasDetails, hnone, List.all_nil, List.all_nil]
    · rw [auditWhere, asksFor, hcolumns log, Bool.false_and, Bool.false_and]
  · have hcount := hexact.2
    rw [countAuditLogs, List.countP_map] at hcount
    have hmissesNone : ∀ log ∈ logs, asksFor format filter log = true →
        auditWhere format filter (createAuditLog format log) = true := by
      intro other _ hasks
      obtain ⟨hcolumns, hdetails⟩ := Bool.and_eq_true_iff.mp hasks
      exact Bool.and_eq_true_iff.mpr ⟨hcolumns, detailsMatch_of_hasDetails hplain hdetails⟩
    have hwhere := eq_of_countP_eq hmissesNone hcount log hlog
    simp only [auditWhere, asksFor, hcolumns, hlacks, Bool.and_false,
      Bool.true_and] at hwhere
    obtain ⟨entry, hentry, hnot⟩ := List.all_eq_false.mp hwhere
    exact ⟨entry, hentry, Bool.eq_false_of_not_eq_true hnot⟩
  · apply selectsExactly_of_forall hrecorded
    intro log hlog
    cases hcolumns : columnsMatch filter (createAuditLog format log) with
    | false => rw [auditWhere, asksFor, hcolumns, Bool.false_and, Bool.false_and]
    | true =>
      rw [auditWhere, asksFor, hcolumns, Bool.true_and, Bool.true_and]
      cases hdetails : hasDetails filter log.details with
      | true => exact detailsMatch_of_hasDetails hplain hdetails
      | false =>
        obtain ⟨entry, hentry, hnot⟩ := hapart log hlog hcolumns hdetails
        apply List.all_eq_false.mpr
        exact ⟨entry, hentry, Bool.not_eq_true _ ▸ hnot⟩

/-- A scope in other letters is taken for the scope. -/
theorem scope_in_capitals_is_selected :
    let log : AuditLogRecord ℕ := ⟨1, none, none, "credential.revoke", "credential", none,
      .object [("scope", .string "Whole-Type")], none, 5⟩
    let filter : AuditLogFilter :=
      { details := OrderedMap.empty.set "scope" (.text "whole-type") }
    log.Recorded ∧ countAuditLogs decimalFormat [createAuditLog decimalFormat log] filter = 1 ∧
      ¬SelectsExactly decimalFormat [log] filter := by
  intro log filter
  have hcount : countAuditLogs decimalFormat [createAuditLog decimalFormat log] filter = 1 := by
    decide
  refine ⟨⟨⟨List.nodup_singleton _, trivial, trivial⟩, _, rfl⟩, hcount, fun hexact => ?_⟩
  have hnone : [log].countP (asksFor decimalFormat filter) = 0 := by decide
  have hsame : countAuditLogs decimalFormat [createAuditLog decimalFormat log] filter =
      [log].countP (asksFor decimalFormat filter) := hexact.2
  omega

end FerrumNexus.Audit
