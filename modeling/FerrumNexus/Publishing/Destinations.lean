import FerrumNexus.Network.Literals

/-!
# Where an upstream may point

The host checks of `publishing/oas.ts`: whether a host or an answer of the
resolver is a public destination, the comparable form of an address, and the
guard against an upstream that is the gateway itself. The URL parser and the
resolvers are parameters.
-/
namespace FerrumNexus.Publishing.Destinations

open Network

/-! ## Reading an address -/

/-- `host.replace(IPV6_BRACKETS, '')`. -/
def stripBrackets (host : Text) : Text :=
  let opened := if host.head? = some '[' then host.tail else host
  if opened.getLast? = some ']' then opened.dropLast else opened

/-- `host.replace(TRAILING_DOT, '').toLowerCase()`. -/
def normalizeHost (host : Text) : Text :=
  lower (if host.getLast? = some '.' then host.dropLast else host)

def IPV6_GROUP (group : Text) : Bool :=
  1 ≤ group.length && group.length ≤ 4 && group.all "0123456789abcdef".toList.contains

/-- Colon-separated hex groups, or `none` if any group is not one. -/
def parseHextets (part : Text) : Option (List ℕ) :=
  if part = [] then some []
  else
    let groups := part.splitOn ':'
    if groups.all IPV6_GROUP then some (groups.map hexValue) else none

/-- `Number` of a decimal numeral. -/
def number (text : Text) : ℕ := Nat.ofDigitChars 10 text 0

/-- The text with a dotted quad at its end written as two groups, `none` where the end has a dot
and is no IPv4 address. -/
def undotted (text : Text) : Option Text :=
  let tail := (text.reverse.takeWhile (· ≠ ':')).reverse
  let lead := (text.reverse.dropWhile (· ≠ ':')).reverse
  if '.' ∈ tail then
    if isIP tail ≠ 4 then none
    else
      let octet (i : ℕ) := number ((tail.splitOn '.').getD i [])
      let high := Nat.toDigits 16 (octet 0 <<< 8 ||| octet 1)
      let low := Nat.toDigits 16 (octet 2 <<< 8 ||| octet 3)
      some (lead ++ high ++ ':' :: low)
  else some text

/-- The eight groups of an IPv6 address in any textual form; a zone index is dropped. -/
def ipv6Hextets (address : Text) : Option (List ℕ) :=
  match undotted ((lower address).takeWhile (· ≠ '%')) with
  | none => none
  | some text =>
    match splitPair text with
    | [whole] => (parseHextets whole).filter fun head => head.length = 8
    | [first, second] =>
      match parseHextets first, parseHextets second with
      | some head, some rest =>
        if head.length + rest.length < 8 then
          some (head ++ List.replicate (8 - head.length - rest.length) 0 ++ rest)
        else none
      | _, _ => none
    | _ => none

/-- Whether the hextets in `[from, to)` are all zero. -/
def allZero (hextets : List ℕ) (start stop : ℕ) : Bool :=
  ((hextets.take stop).drop start).all (· == 0)

/-- The IPv4 address spelled by two hextets, high one first. -/
def dottedQuad (high low : ℕ) : Text :=
  join '.' ([high >>> 8, high &&& 0xff, low >>> 8, low &&& 0xff].map (Nat.toDigits 10))

/-- The IPv4 address an IPv4-mapped, NAT64 well-known-prefix or 6to4 address delivers to. -/
def embeddedIpv4 (hextets : List ℕ) : Option Text :=
  let at' (i : ℕ) := hextets.getD i 0
  if allZero hextets 0 5 && at' 5 == 0xffff then some (dottedQuad (at' 6) (at' 7))
  else if at' 0 == 0x64 && at' 1 == 0xff9b && allZero hextets 2 6 then
    some (dottedQuad (at' 6) (at' 7))
  else if at' 0 == 0x2002 then some (dottedQuad (at' 1) (at' 2))
  else none

/-! ## Public destinations -/

def isPublicIpv4 (host : Text) : Bool :=
  let octets := (host.splitOn '.').map number
  let a := octets.getD 0 0
  let b := octets.getD 1 0
  !(a == 0 || a == 10 || a == 127 || (a == 100 && 64 ≤ b && b ≤ 127) || (a == 169 && b == 254) ||
    (a == 172 && 16 ≤ b && b ≤ 31) || (a == 192 && b == 0) || (a == 192 && b == 168) ||
    (a == 198 && (b == 18 || b == 19)) || 224 ≤ a)

def isPublicIpv6 (host : Text) : Bool :=
  match ipv6Hextets host with
  | none => false
  | some hextets =>
    match embeddedIpv4 hextets with
    | some embedded => isPublicIpv4 embedded
    | none =>
      let first := hextets.getD 0 0
      let second := hextets.getD 1 0
      !(first == 0 || (first == 0x64 && second == 0xff9b) || (0xfc00 ≤ first && first ≤ 0xfdff) ||
        (0xfe80 ≤ first && first ≤ 0xfeff) || 0xff00 ≤ first)

structure ResolvedAddress where
  address : Text
  family : ℕ

/-- Whether one resolved address is a public destination. -/
def isPublicResolvedAddress (entry : ResolvedAddress) : Bool :=
  let version := isIP entry.address
  if version = 0 then false
  else if version = 4 then isPublicIpv4 entry.address
  else isPublicIpv6 entry.address

def endsWith (suffix : String) (name : Text) : Bool := suffix.toList.isSuffixOf name

/-- Whether a host, a name or a bare IP literal, is a public destination. -/
def isPublicUpstreamHost (host : Text) : Bool :=
  let name := normalizeHost host
  if name = "localhost".toList || endsWith ".localhost" name || endsWith ".local" name ||
      endsWith ".internal" name || endsWith ".home.arpa" name then false
  else if isIP name = 4 then isPublicIpv4 name
  else if isIP name = 6 then isPublicIpv6 name
  else true

/-! ## Comparable forms -/

/-- The comparable spelling of an IP literal. -/
def canonicalAddress (address : Text) : Text :=
  let bare := lower (stripBrackets address)
  if isIP bare = 4 then bare
  else if isIP bare ≠ 6 then bare
  else
    match ipv6Hextets bare with
    | none => bare
    | some hextets =>
      (embeddedIpv4 hextets).getD (join ':' (hextets.map (Nat.toDigits 16)))

/-- The comparable form of a host. -/
def canonicalHost (host : Text) : Text :=
  let bare := stripBrackets host
  if isIP bare = 0 then normalizeHost bare else canonicalAddress bare

def IPV6_LOOPBACK : Text := "0:0:0:0:0:0:0:1".toList
def IPV6_UNSPECIFIED : Text := "0:0:0:0:0:0:0:0".toList

/-- Whether a canonical address reaches the local host. -/
def isLocalHostAddress (address : Text) : Bool :=
  if isIP address = 4 then "127.".toList.isPrefixOf address || address == "0.0.0.0".toList
  else address == IPV6_LOOPBACK || address == IPV6_UNSPECIFIED

/-- Whether two canonical addresses are one destination. -/
def sameDestination (a b : Text) : Bool := a == b || (isLocalHostAddress a && isLocalHostAddress b)

/-! ## Refusing an upstream -/

/-- The `SPEC_INVALID` refusals of the upstream policy. -/
inductive Refusal where
  | privateUpstream (host : Text) (resolved : Option (List Text))
  | unresolvableUpstream (host : Text)
  | gatewayLoop (host : Text)
  | gatewayUnresolvable (host : Text)
  deriving DecidableEq

namespace Refusal

def field : Refusal → String
  | _ => "upstream_url"

def reason : Refusal → String
  | privateUpstream _ _ => "private_upstream"
  | unresolvableUpstream _ => "unresolvable_upstream"
  | gatewayLoop _ => "gateway_origin"
  | gatewayUnresolvable _ => "gateway_unresolvable"

def message : Refusal → String
  | privateUpstream host resolved =>
    "The upstream host '" ++ String.ofList host ++
      "' is a loopback, private, link-local or internal destination" ++
      (match resolved with
        | none => ""
        | some addresses => " (it resolves to " ++
            String.ofList (", ".toList.intercalate addresses) ++ ", which is not public)") ++
      "; this portal only publishes APIs with public upstreams (set " ++
      "NEXUS_ALLOW_PRIVATE_UPSTREAMS=true to change that)"
  | unresolvableUpstream host =>
    "The upstream host '" ++ String.ofList host ++
      "' could not be resolved, so it cannot be shown to point at a public destination; " ++
      "this portal only publishes APIs with public upstreams " ++
      "(set NEXUS_ALLOW_PRIVATE_UPSTREAMS=true to change that)"
  | gatewayLoop host =>
    "The upstream host '" ++ String.ofList host ++
      "' resolves to the gateway's public origin and would loop requests"
  | gatewayUnresolvable host =>
    "The gateway's own host '" ++ String.ofList host ++
      "' could not be resolved, so the upstream cannot be shown to avoid looping back to the " ++
      "gateway; publishing is refused until the gateway resolves " ++
      "(check FERRUM_ADMIN_URL, FERRUM_GATEWAY_PUBLIC_URL and DNS)"

end Refusal

/-- Every answer for a name; `none` for a lookup that rejects. -/
abbrev UpstreamResolver := Text → Option (List ResolvedAddress)

structure UpstreamPolicy where
  allowPrivate : Bool
  /-- `new URL(origin).hostname` of every gateway origin; `none` where it does not parse. -/
  gatewayHostnames : List (Option Text)
  resolveGateway : Option UpstreamResolver
  resolve : UpstreamResolver

/-- `parseUpstreamUrl(…).host`, of the URL's hostname. -/
def upstreamHost (hostname : Text) : Text := lower (stripBrackets hostname)

/-- Resolve host names to comparable addresses without changing the egress policy. -/
def addressesForHost (host : Text) (resolve : UpstreamResolver) (required : Bool) :
    Except Refusal (List Text) :=
  let normalized := stripBrackets (normalizeHost host)
  if isIP normalized ≠ 0 then .ok [canonicalAddress normalized]
  else if normalized = "localhost".toList || endsWith ".localhost" normalized then
    .ok ["127.0.0.1".toList, IPV6_LOOPBACK]
  else
    match resolve normalized with
    | none => if required then .error (.gatewayUnresolvable host) else .ok []
    | some resolved =>
      if required && resolved.isEmpty then .error (.gatewayUnresolvable host)
      else .ok (resolved.map fun entry => canonicalAddress entry.address)

/-- The round of the guard for one gateway origin. -/
def assertNotOrigin (upstream : Text) (upstreamAddresses : List Text) (upstreamHost : Text)
    (resolveGateway : UpstreamResolver) : Option Text → Except Refusal Unit
  | none => .ok ()
  | some hostname => do
    let gatewayHost := stripBrackets hostname
    if canonicalHost gatewayHost = upstreamHost then .error (.gatewayLoop upstream)
    let gatewayAddresses ← addressesForHost gatewayHost resolveGateway true
    if gatewayAddresses.any fun gateway => upstreamAddresses.any (sameDestination gateway) then
      .error (.gatewayLoop upstream)

/-- Refuse an upstream that names or resolves to any of the gateway's own origins. -/
def assertNotGatewayOrigin (upstream : Text) (policy : UpstreamPolicy) : Except Refusal Unit :=
  if policy.gatewayHostnames = [] then .ok ()
  else do
    let upstreamAddresses ← addressesForHost upstream policy.resolve false
    policy.gatewayHostnames.forM (assertNotOrigin upstream upstreamAddresses
      (canonicalHost upstream) (policy.resolveGateway.getD policy.resolve))

/-- The destination privacy lines of `assertUpstreamAllowed`. -/
def assertPublicDestination (upstream : Text) (resolve : UpstreamResolver) :
    Except Refusal Unit :=
  if isPublicUpstreamHost upstream = false then .error (.privateUpstream upstream none)
  else if isIP upstream ≠ 0 then .ok ()
  else
    match resolve upstream with
    | none => .error (.unresolvableUpstream upstream)
    | some resolved =>
      if resolved.isEmpty then .error (.unresolvableUpstream upstream)
      else if resolved.all isPublicResolvedAddress = false then
        .error (.privateUpstream upstream (some (resolved.map ResolvedAddress.address)))
      else .ok ()

def assertUpstreamAllowed (upstream : Text) (policy : UpstreamPolicy) : Except Refusal Unit := do
  if policy.allowPrivate = false then assertPublicDestination upstream policy.resolve
  assertNotGatewayOrigin upstream policy

end FerrumNexus.Publishing.Destinations
