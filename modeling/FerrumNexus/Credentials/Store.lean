import FerrumNexus.Portal.World

/-!
# Credential rows and the gateway's entries

The calls of the credential service on its own table and on a consumer's
credentials. Rows come back in the order the source asks for them, and a read
of a consumer hides what the gateway hides.
-/
namespace FerrumNexus.Credentials

open Saga Platform Portal

abbrev CredentialService (α : Type) := Service World α

/-! ## The store -/

/-- `NULL` ordinals first, then append order, then `created_at` and `id`. -/
def rowBefore (a b : CredentialRecord) : Bool :=
  match a.edgeOrdinal, b.edgeOrdinal with
  | none, some _ => true
  | some _, none => false
  | none, none => a.createdAt < b.createdAt || (a.createdAt == b.createdAt && a.id ≤ b.id)
  | some m, some n =>
    m < n || (m == n && (a.createdAt < b.createdAt || (a.createdAt == b.createdAt && a.id ≤ b.id)))

/-- `credentials.listByConsumer` for one type and the live statuses. -/
def listByConsumer (s : World) (consumerId : ConsumerId) (type : CredentialType) : List CredentialRecord :=
  (s.rows.filter fun row => row.ferrumConsumerId == consumerId && row.credentialType == type &&
    row.status.isLive).insertionSort (rowBefore · ·)

def findById (s : World) (id : ℕ) : Option CredentialRecord :=
  s.rows.find? fun row => row.id == id

/-- `COALESCE(MAX(edge_ordinal), 0) + 1` over every row of the pair. -/
def nextOrdinal (s : World) (consumerId : ConsumerId) (type : CredentialType) : ℕ :=
  (s.rows.filter fun row => row.ferrumConsumerId == consumerId &&
    row.credentialType == type).foldr (fun row m => max (row.edgeOrdinal.getD 0) m) 0 + 1

/-- The fields a caller of `credentials.create` gives. -/
structure CreateInput where
  userId : ℕ
  applicationId : Option ℕ
  ferrumConsumerId : ConsumerId
  credentialType : CredentialType
  fingerprint : ℕ
  status : CredentialStatus
  rotatedFromId : Option ℕ

def createRow (input : CreateInput) (s : World) : CredentialRecord × World :=
  let row : CredentialRecord :=
    { id := s.fresh
      userId := input.userId
      applicationId := input.applicationId
      ferrumConsumerId := input.ferrumConsumerId
      credentialType := input.credentialType
      fingerprint := input.fingerprint
      status := input.status
      rotatedFromId := input.rotatedFromId
      edgeOrdinal := some (nextOrdinal s input.ferrumConsumerId input.credentialType)
      createdAt := s.now
      updatedAt := s.now }
  (row, { s with rows := s.rows ++ [row], fresh := s.fresh + 1 })

/-- `credentials.update(id, { status })`. -/
def updateStatus (id : ℕ) (status : CredentialStatus) (s : World) : World :=
  { s with rows := s.rows.map fun row =>
      if row.id = id then { row with status := status, updatedAt := s.now } else row }

/-- `credentials.updateIfStatus`: the row as moved, or `none` and no change. -/
def updateIfStatus (id : ℕ) (expected status : CredentialStatus) (s : World) :
    Option CredentialRecord × World :=
  match findById s id with
  | some row =>
    if row.status = expected then
      (findById (updateStatus id status s) id, updateStatus id status s)
    else (none, s)
  | none => (none, s)

def deleteRow (id : ℕ) (s : World) : World :=
  { s with rows := s.rows.filter fun row => row.id != id }

/-! ## The gateway -/

/-- The entries of one type, empty for a consumer that does not exist. -/
def entries (s : World) (consumerId : ConsumerId) (type : CredentialType) : List ℕ :=
  match s.consumers consumerId with
  | some consumer => consumer.credentials type
  | none => []

def setEntries (consumerId : ConsumerId) (type : CredentialType) (array : List ℕ) (s : World) : World :=
  match s.consumers consumerId with
  | some consumer =>
    let changed := { consumer with credentials := Function.update consumer.credentials type array }
    { s with consumers := Function.update s.consumers consumerId (some changed) }
  | none => s

/-- A consumer as a read shows it: no HTTP Basic entries, and no material where
the gateway redacts it. -/
structure ConsumerView where
  username : Username
  aclGroups : List AclGroup
  credentials : CredentialType → Option (List (Option ℕ))

def projection (s : World) (consumer : EdgeConsumer) : ConsumerView where
  username := consumer.username
  aclGroups := consumer.aclGroups
  credentials type :=
    if type = .basicauth then none
    else some ((consumer.credentials type).map fun material =>
      if s.redacts then none else some material)

/-- `edge.consumers.get`. -/
def getConsumer (consumerId : ConsumerId) : CredentialService (Option ConsumerView) :=
  edgeRead fun s => (s.consumers consumerId).map (projection s)

/-- What the gateway answers about a consumer it does not have. -/
def consumerNotFound : NexusError := edgeFailure (some 404)

/-- `edge.consumers.addCredential`: the array grows at its end. -/
def addCredential (consumerId : ConsumerId) (type : CredentialType) (material : ℕ) :
    CredentialService Unit :=
  edgeWrite fun s =>
    match s.consumers consumerId with
    | none => .error consumerNotFound
    | some _ => .ok ((), setEntries consumerId type (entries s consumerId type ++ [material]) s)

/-- `edge.consumers.deleteCredentialAt`, issued for the row with the
fingerprint `intended`. -/
def deleteCredentialAt (consumerId : ConsumerId) (type : CredentialType) (index intended : ℕ) :
    CredentialService Unit :=
  edgeWrite fun s =>
    match s.consumers consumerId, (entries s consumerId type)[index]? with
    | some _, some removed =>
      .ok ((), { setEntries consumerId type ((entries s consumerId type).eraseIdx index) s with
        removals := ⟨intended, removed⟩ :: s.removals })
    | _, _ => .error consumerNotFound

/-- `edge.consumers.deleteCredentialType`. -/
def deleteCredentialType (consumerId : ConsumerId) (type : CredentialType) : CredentialService Unit :=
  edgeWrite fun s =>
    match s.consumers consumerId with
    | none => .error consumerNotFound
    | some _ => .ok ((), setEntries consumerId type [] s)

/-- `newId()` and `generateCredential`: a token never used before. -/
def generate : CredentialService ℕ :=
  atomic fun s _ => some (.ok s.fresh, { s with fresh := s.fresh + 1 })

end FerrumNexus.Credentials
