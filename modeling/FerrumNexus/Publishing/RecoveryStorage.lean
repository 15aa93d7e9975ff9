import FerrumNexus.Formats.JsonText
import FerrumNexus.Formats.Base64
import FerrumNexus.Platform.Calls
import FerrumNexus.Platform.Text

/-!
# Where recovery journals are kept

A journal is one encrypted row of the settings table under its own key, or, when
its text is too long for one row, a manifest there and one row for each chunk of
its base64 text. Each function is one transaction on the table, which commits
whole or leaves it as it was. The cipher and the fingerprint are parameters. The
text of a journal is ASCII once it is base64, so its characters are its UTF-16
code units.
-/
namespace FerrumNexus.RecoveryStorage

open Formats Platform

/-- A row of `app_settings`. -/
structure SettingRow (ν : Type) where
  value : Json ν
  encrypted : Bool

abbrev Settings (ν : Type) := String → Option (SettingRow ν)

/-- What the storage uses of `NexusCrypto`. A number stands for the random
initialisation vector of one encryption. -/
structure NexusCrypto (ν : Type) where
  encryptJson : String → Json ν → ℕ → String
  decryptJson : String → String → Except NexusError (Json ν)
  fingerprint : String → String

def INLINE_BYTES : ℕ := 512 * 1024

def CHUNK_CHARACTERS : ℕ := 512 * 1024

def FORMAT : String := "gateway-recovery-chunks-v1"

/-- A lowercase hexadecimal string of `n` digits. -/
def isHex (n : ℕ) (s : String) : Bool :=
  s.toList.length == n && s.toList.all fun c => c.isDigit || ('a' ≤ c && c ≤ 'f')

/-- `GENERATION_SHAPE`. -/
def generationShape (s : String) : Bool := isHex 32 s

/-- `FINGERPRINT_SHAPE`. -/
def fingerprintShape (s : String) : Bool := isHex 64 s

structure Manifest where
  key : String
  generation : String
  count : ℕ
  characters : ℕ
  fingerprint : String
  deriving DecidableEq, Repr

def chunkKey (manifest : Manifest) (index : ℕ) : String :=
  "gateway_recovery_chunk:" ++ manifest.generation ++ ":" ++ toString index

def syntaxError : NexusError := ⟨.internal, "Internal server error", none⟩

def rangeError : NexusError := ⟨.internal, "Invalid string length", none⟩

def manifestInvalid : NexusError := conflict "The encrypted gateway recovery manifest is invalid"

def recordUnavailable : NexusError :=
  conflict "The encrypted gateway recovery record is unavailable"

def chunkUnavailable : NexusError := conflict "An encrypted gateway recovery chunk is unavailable"

def chunkMismatch : NexusError :=
  conflict "An encrypted gateway recovery chunk does not match its manifest"

def journalMismatch : NexusError :=
  conflict "The complete encrypted gateway recovery journal does not match its manifest"

section Storage

variable {ν : Type} (format : NumberFormat ν) (crypto : NexusCrypto ν)

/-- A member that is a string. -/
def stringMember (members : List (String × Json ν)) (name : String) : Option String :=
  match member members name with
  | some (.string s) => some s
  | _ => none

/-- A member that is a safe integer. -/
def integerMember (members : List (String × Json ν)) (name : String) : Option ℤ :=
  match member members name with
  | some (.number n) => format.safeInteger n
  | _ => none

/-- The fields of a manifest, each checked. -/
def checkedManifest (members : List (String × Json ν)) (key : String) : Option Manifest := do
  guard (stringMember members "format" = some FORMAT)
  guard (stringMember members "key" = some key)
  let generation ← stringMember members "generation"
  guard (generationShape generation)
  let count ← integerMember format members "count"
  guard (1 ≤ count)
  let characters ← integerMember format members "characters"
  guard (1 ≤ characters)
  guard ((characters.toNat + CHUNK_CHARACTERS - 1) / CHUNK_CHARACTERS = count.toNat)
  let fingerprint ← stringMember members "fingerprint"
  guard (fingerprintShape fingerprint)
  pure ⟨key, generation, count.toNat, characters.toNat, fingerprint⟩

/-- Only a value with a member `format` is taken for a manifest. -/
def manifestFor (value : Json ν) (key : String) : Except NexusError (Option Manifest) :=
  match value with
  | .object members =>
    if (member members "format").isNone then .ok none
    else
      match checkedManifest format members key with
      | some manifest => .ok (some manifest)
      | none => .error manifestInvalid
  | _ => .ok none

/-- The text of one chunk, once its row is decrypted and its fields agree. -/
def chunkText (manifest : Manifest) (index : ℕ) (chunk : Json ν) : Except NexusError String :=
  match chunk with
  | .null => .error syntaxError
  | .object members =>
    match stringMember members "data" with
    | none => .error chunkMismatch
    | some data =>
      if stringMember members "key" = some manifest.key ∧
          stringMember members "generation" = some manifest.generation ∧
          integerMember format members "index" = some index ∧
          utf16Length data =
            min CHUNK_CHARACTERS (manifest.characters - index * CHUNK_CHARACTERS) then
        .ok data
      else .error chunkMismatch
  | _ => .error chunkMismatch

def loadChunk (manifest : Manifest) (index : ℕ) (s : Settings ν) : Except NexusError String :=
  match s (chunkKey manifest index) with
  | some ⟨.string blob, true⟩ =>
    match crypto.decryptJson (chunkKey manifest index) blob with
    | .ok chunk => chunkText format manifest index chunk
    | .error _ => .error chunkMismatch
  | _ => .error chunkUnavailable

/-- The chunks from `index` on, joined. -/
def loadChunks (manifest : Manifest) (s : Settings ν) : ℕ → ℕ → Except NexusError String
  | _, 0 => .ok ""
  | index, remaining + 1 => do
    let part ← loadChunk format crypto manifest index s
    let rest ← loadChunks manifest s (index + 1) remaining
    pure (part ++ rest)

/-- `Buffer.from(text, 'utf8')`. -/
def utf8 (text : List Char) : List UInt8 :=
  (String.ofList text).toUTF8.data.toList

/-- `JSON.parse(Buffer.from(encoded, 'base64').toString('utf8'))`. -/
def parseEncoded (encoded : String) : Except NexusError (Json ν) :=
  match String.fromUTF8? (decodeBase64 encoded.toList).toByteArray with
  | none => .error syntaxError
  | some text =>
    match parse format text.toList with
    | some value => .ok value
    | none => .error syntaxError

def load (key : String) (s : Settings ν) : Except NexusError (Option (Json ν × Option Manifest)) :=
  match s key with
  | none => .ok none
  | some ⟨.string blob, true⟩ => do
    let value ← crypto.decryptJson key blob
    let found ← manifestFor format value key
    match found with
    | none => pure (some (value, none))
    | some manifest => do
      let encoded ← loadChunks format crypto manifest s 0 manifest.count
      if crypto.fingerprint encoded ≠ manifest.fingerprint then .error journalMismatch
      else do
        let complete ← parseEncoded format encoded
        pure (some (complete, some manifest))
  | some _ => .error recordUnavailable

/-- `readRecoveryJournal`: `null` without a row, and what `load` makes of it
otherwise. -/
def readRecoveryJournal (key : String) (s : Settings ν) : Except NexusError (Option (Json ν)) :=
  match s key with
  | none => .ok none
  | some _ => do
    let journal ← load format crypto key s
    pure (journal.map (·.1))

/-- One call of `writeRecoveryJournal`, with what it draws: the generation, and
an initialisation vector for the record and for each chunk. -/
structure Write (ν : Type) where
  key : String
  value : Json ν
  generation : String
  iv : ℕ
  chunkIv : ℕ → ℕ

def Write.bytes (w : Write ν) : List UInt8 := utf8 (stringify format w.value)

def Write.encoded (w : Write ν) : List Char := encodeBase64 (w.bytes format)

/-- Whether the text needs chunks. -/
def Write.chunked (w : Write ν) : Bool := INLINE_BYTES < (w.bytes format).length

def Write.manifest (w : Write ν) : Manifest where
  key := w.key
  generation := w.generation
  count := ((w.encoded format).length + CHUNK_CHARACTERS - 1) / CHUNK_CHARACTERS
  characters := (w.encoded format).length
  fingerprint := crypto.fingerprint (String.ofList (w.encoded format))

def manifestJson (manifest : Manifest) : Json ν :=
  .object [("format", .string FORMAT), ("key", .string manifest.key),
    ("generation", .string manifest.generation), ("count", .number (format.ofNat manifest.count)),
    ("characters", .number (format.ofNat manifest.characters)),
    ("fingerprint", .string manifest.fingerprint)]

/-- The text of a chunk: `encoded.slice(index * size, (index + 1) * size)`. -/
def Write.slice (w : Write ν) (index : ℕ) : String :=
  String.ofList (((w.encoded format).drop (index * CHUNK_CHARACTERS)).take CHUNK_CHARACTERS)

def Write.chunkJson (w : Write ν) (index : ℕ) : Json ν :=
  .object [("key", .string w.key), ("generation", .string w.generation),
    ("index", .number (format.ofNat index)), ("data", .string (w.slice format index))]

/-- The row of the key. -/
def Write.record (w : Write ν) : SettingRow ν :=
  let payload := if w.chunked format then manifestJson format (w.manifest format crypto) else w.value
  ⟨.string (crypto.encryptJson w.key payload w.iv), true⟩

/-- The row of one chunk. -/
def Write.chunkRow (w : Write ν) (index : ℕ) : SettingRow ν :=
  ⟨.string (crypto.encryptJson (chunkKey (w.manifest format crypto) index)
    (w.chunkJson format index) (w.chunkIv index)), true⟩

/-- The number of chunk rows. -/
def Write.count (w : Write ν) : ℕ :=
  if w.chunked format then (w.manifest format crypto).count else 0

/-- No text of the call is longer than a string can be. -/
def Write.fits (w : Write ν) : Bool :=
  (stringify format w.value).length ≤ MAX_STRING_LENGTH &&
    (w.encoded format).length ≤ MAX_STRING_LENGTH

/-- `tx.settings.set(key, value, true)`. -/
def setRow (key : String) (row : SettingRow ν) (s : Settings ν) : Settings ν :=
  Function.update s key (some row)

/-- The rows of the chunks, set in turn. -/
def setChunks (w : Write ν) (s : Settings ν) : Settings ν :=
  (List.range (w.count format crypto)).foldl
    (fun s index => setRow (chunkKey (w.manifest format crypto) index)
      (w.chunkRow format crypto index) s) s

/-- The chunks of a generation that is retired, deleted in turn. -/
def deleteChunks (manifest : Option Manifest) (s : Settings ν) : Settings ν :=
  match manifest with
  | none => s
  | some manifest =>
    (List.range manifest.count).foldl
      (fun s index => Function.update s (chunkKey manifest index) none) s

def writeRecoveryJournal (w : Write ν) (s : Settings ν) : Except NexusError (Settings ν) :=
  if !w.fits format then .error rangeError
  else do
    let previous ← load format crypto w.key s
    pure (deleteChunks (previous.bind (·.2))
      (setRow w.key (w.record format crypto) (setChunks format crypto w s)))

def deleteRecoveryJournal (key : String) (s : Settings ν) : Except NexusError (Settings ν) :=
  match s key with
  | none => .ok s
  | some _ => do
    let previous ← load format crypto key s
    pure (Function.update (deleteChunks (previous.bind (·.2)) s) key none)

end Storage

end FerrumNexus.RecoveryStorage
