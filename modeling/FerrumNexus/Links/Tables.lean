import FerrumNexus.Accounts.Authentication

/-!
# The tables behind recovery links

A verification link and a reset link are rows of one table, told apart by their
purpose. A mint claims its throttle window in a table of its own and puts the
message with the link into the outbox. `accounts` are the tables of the account
services; they keep a view of the reset links that nothing here reads, since
whatever a service deletes there it deletes from `rows`. A token and its hash
are one number. History: `rows` keeps the deleted rows and every row the number
of its commit, and the mints and the redemptions of links are listed. Ids and
tokens are random and do not repeat, so the unique constraints hold against
deleted rows too.
-/
namespace FerrumNexus.Links

open Saga Accounts

/-- `VerificationTokenPurpose`. -/
inductive Purpose
  | email_verification
  | password_reset
  deriving DecidableEq, Repr

/-- A row of `email_verification_tokens`, with its commit. -/
structure VerificationTokenRecord where
  id : ℕ
  user_id : ℕ
  token_hash : ℕ
  purpose : Purpose
  expires_at : ℕ
  used_at : Option ℕ
  created_at : ℕ
  number : ℕ
  deleted : Bool
  deriving DecidableEq, Repr

/-- One committed mint. -/
structure Mint where
  user_id : ℕ
  purpose : Purpose
  number : ℕ
  issuedAt : ℕ
  deriving DecidableEq, Repr

/-- A message in the outbox. Its idempotency key is the id of the link. -/
structure Mail where
  tokenId : ℕ
  purpose : Purpose
  deriving DecidableEq, Repr

structure LinkTables where
  accounts : Tables
  rows : List VerificationTokenRecord
  issueClaims : ℕ → Purpose → Option ℕ
  outbox : List Mail
  mints : List Mint
  redemptions : List ℕ

abbrev World := Leased AccountKey LinkTables

abbrev LinkQuery (α : Type) := Query LinkTables AccountError α

abbrev LinkWrite (α : Type) := Write LinkTables AccountError α

abbrev LinkProgram (α : Type) := KeyedProgram LinkTables α

/-- The deployment, and which mail hooks it has. -/
structure Deps where
  config : Config
  prepares : Purpose → Bool

def PASSWORD_RESET_TTL_SECONDS : ℕ := 3600

def EMAIL_VERIFICATION_TTL_SECONDS : ℕ := 86400

def PASSWORD_RESET_THROTTLE_SECONDS : ℕ := 600

def VERIFICATION_RESEND_THROTTLE_SECONDS : ℕ := 600

/-- The throttle window of a purpose, in milliseconds. -/
def throttle : Purpose → ℕ
  | .email_verification => VERIFICATION_RESEND_THROTTLE_SECONDS * 1000
  | .password_reset => PASSWORD_RESET_THROTTLE_SECONDS * 1000

/-- How long a link lives, in milliseconds. -/
def lifetime : Purpose → ℕ
  | .email_verification => EMAIL_VERIFICATION_TTL_SECONDS * 1000
  | .password_reset => PASSWORD_RESET_TTL_SECONDS * 1000

/-! ## Reads -/

/-- A program about a part of the state, inside the whole. -/
def through {σ δ χ α : Type} (view : σ → δ) : Program δ χ α → Program σ χ α
  | .done a => .done a
  | .action f k =>
    .action (fun s c => (f (view s) c).map fun answer => (answer.1, s)) fun b => through view (k b)

/-- A query of the account services. -/
def onAccounts {α : Type} (p : AccountQuery α) : LinkQuery α :=
  ExceptT.mk (through LinkTables.accounts p.run)

def askAccounts {α : Type} (p : AccountQuery α) : LinkProgram α := (onAccounts p).watch

def reads {α : Type} (f : LinkTables → α) : LinkQuery α := look .internal f

section Reads

variable (d : LinkTables)

/-- The rows that are there. -/
def LinkTables.tokens : List VerificationTokenRecord := d.rows.filter (!·.deleted)

def belongs (userId : ℕ) (purpose : Purpose) (row : VerificationTokenRecord) : Bool :=
  row.user_id == userId && row.purpose == purpose

/-- Neither burned nor expired. -/
def isLive (now : ℕ) (row : VerificationTokenRecord) : Bool :=
  row.used_at.isNone && now < row.expires_at

/-- `verificationTokens.findByTokenHash`. -/
def findByTokenHash (token : ℕ) (purpose : Purpose) : Option VerificationTokenRecord :=
  d.tokens.find? fun row => row.token_hash == token && row.purpose == purpose

/-- Newest first; of one instant the greatest id. -/
def newerFirst (a b : VerificationTokenRecord) : Prop :=
  b.created_at < a.created_at ∨ b.created_at = a.created_at ∧ b.id ≤ a.id

instance : DecidableRel newerFirst := fun a b =>
  inferInstanceAs (Decidable (b.created_at < a.created_at ∨ b.created_at = a.created_at ∧ b.id ≤ a.id))

/-- `verificationTokens.findLatestLiveForUser`. -/
def findLatestLiveForUser (userId : ℕ) (purpose : Purpose) (now : ℕ) :
    Option VerificationTokenRecord :=
  ((d.tokens.filter fun row => belongs userId purpose row && isLive now row).insertionSort
    newerFirst).head?

end Reads

/-! ## Statements -/

/-- A write of the account services. -/
def writeAccounts {α : Type} (write : AccountWrite α) : LinkWrite α := fun d =>
  (write.run d.accounts).map fun answer => (answer.1, { d with accounts := answer.2 })

/-- `verificationTokens.claimIssue`, with `notBefore` the throttle window before
`issuedAt`. -/
def claimIssue (userId : ℕ) (purpose : Purpose) (issuedAt : ℕ) : LinkWrite Bool := do
  let d ← get
  if (d.issueClaims userId purpose).all (· + throttle purpose ≤ issuedAt) then do
    let claims := Function.update (d.issueClaims userId) purpose (some issuedAt)
    set { d with issueClaims := Function.update d.issueClaims userId claims }
    pure true
  else pure false

def strike (userId : ℕ) (purpose : Purpose) (row : VerificationTokenRecord) :
    VerificationTokenRecord :=
  if belongs userId purpose row then { row with deleted := true } else row

/-- `verificationTokens.deleteForUser`. -/
def deleteForUser (userId : ℕ) (purpose : Purpose) : LinkWrite Unit :=
  modify fun d => { d with rows := d.rows.map (strike userId purpose) }

/-- `verificationTokens.create`, with its unique constraints. -/
def createToken (row : VerificationTokenRecord) : LinkWrite Unit := do
  let d ← get
  if d.rows.any fun other => other.id == row.id || other.token_hash == row.token_hash then
    throw (.conflict "Verification token collision")
  else set { d with rows := d.rows ++ [row] }

def burn (id usedAt : ℕ) (row : VerificationTokenRecord) : VerificationTokenRecord :=
  if row.id = id then { row with used_at := some usedAt } else row

/-- `verificationTokens.markUsed`: whether the link was still there and
unused. -/
def markUsed (id usedAt : ℕ) : LinkWrite Bool := do
  let d ← get
  match d.tokens.find? fun row => row.id == id && row.used_at.isNone with
  | none => pure false
  | some row => do
    set { d with rows := d.rows.map (burn id usedAt), redemptions := row.id :: d.redemptions }
    pure true

/-- The outbox insert of a mint, if mail is set up. It may fail. -/
def queueEmail (prepared : Bool) (tokenId : ℕ) (purpose : Purpose) (fails : Bool) : LinkWrite Unit :=
  if !prepared then pure ()
  else if fails then throw .internal
  else modify fun d => { d with outbox := d.outbox ++ [⟨tokenId, purpose⟩] }

def recordMint (mint : Mint) : LinkWrite Unit :=
  modify fun d => { d with mints := mint :: d.mints }

/-! ## Transactions -/

/-- Every commit has the next number. -/
def numbered {α : Type} (write : LinkWrite α) : LinkWrite α := do
  modify fun d => { d with accounts := d.accounts.tick }
  write

/-- `store.transaction`. -/
def transaction {α : Type} (isolation : Isolation) (slot : ℕ) (body : LinkQuery (LinkWrite α))
    (held : Held) : LinkProgram α :=
  transact .internal (.conflict Platform.LEASE_LOST_MESSAGE) isolation slot held (numbered <$> body)

end FerrumNexus.Links
