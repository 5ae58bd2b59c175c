import Urma.Names.Name
import Urma.Web.Store

/-!
# The hosts of a portal

`urma_cli::gateway_host` and the link rewriting of `urma_cli::gateway_links`: a portal serves the
sites of a registry under its own domain. A `&str` is its bytes here; what is cut off one is cut at
ASCII bytes.
-/

namespace Urma.Web

open Names (Name)

/-! ## Suffixes -/

/-- `Suffix`. -/
inductive Suffix where
  | ltc
  | btc
  | tltc
  | tbtc
  deriving DecidableEq

/-- `HostError`. A message that quotes a text has it apart. -/
inductive HostError where
  | malformed (detail : String)
  | malformedText (text : Bytes) (detail : String)
  | malformedUtf8
  | suffix (label : Bytes)
  | name (cause : Error)
  | publication
  | registry
  deriving DecidableEq

namespace Suffix

/-- `Suffix::ALL`. -/
def all : List Suffix := [ltc, btc, tltc, tbtc]

/-- `Suffix::label`. -/
def label : Suffix → Bytes
  | ltc => ascii "ltc"
  | btc => ascii "btc"
  | tltc => ascii "tltc"
  | tbtc => ascii "tbtc"

/-- `Suffix::parse`. -/
def parse (label : Bytes) : Except HostError Suffix :=
  match all.find? fun suffix => suffix.label == label with
  | some suffix => .ok suffix
  | none => .error (.suffix label)

end Suffix

/-! ## Portals -/

/-- `LinkScheme`. -/
inductive LinkScheme where
  | http
  | https
  deriving DecidableEq

/-- `LinkScheme::label`. -/
def LinkScheme.label : LinkScheme → Bytes
  | http => ascii "http"
  | https => ascii "https"

/-- `PublicPort`. -/
inductive PublicPort where
  | default
  | explicit (port : UInt16)
  deriving DecidableEq

/-- `urma_runtime::error::Error::Invalid`, as `ensure!` returns it. A quoted domain is apart; the
last is the message that `links-v1` uses another scheme for the domain. -/
inductive PortalError where
  | invalid (message : String)
  | invalidDomain (domain : Bytes) (message : String)
  | links (expected : LinkScheme) (domain : Bytes)
  deriving DecidableEq

/-- `ensure!`. -/
def ensurePortal (condition : Bool) (error : PortalError) : Except PortalError Unit :=
  if condition then .ok () else .error error

@[simp] theorem ensurePortal_eq_ok {condition : Bool} {error : PortalError} {u : Unit} :
    ensurePortal condition error = .ok u ↔ condition = true := by
  cases condition <;> simp [ensurePortal]

/-- `Portal`. -/
structure Portal where
  domain : Bytes
  authority : Bytes
  scheme : LinkScheme
  registries : Suffix → Option Txid

/-- A byte of a DNS label: lowercase, a digit or a hyphen. -/
def isLabelByte (byte : UInt8) : Bool :=
  (97 ≤ byte && byte ≤ 122) || (48 ≤ byte && byte ≤ 57) || byte == 45

/-- `is_dns_label`. -/
def isDnsLabel (label : Bytes) : Bool :=
  1 ≤ label.length && label.length ≤ Name.maxBytes && label.all isLabelByte

/-- `is_txid`. -/
def isTxid (label : Bytes) : Bool :=
  label.length == 64 && label.all fun byte => (48 ≤ byte && byte ≤ 57) || (97 ≤ byte && byte ≤ 102)

/-- The decimal digits of a number. -/
def decimal (value : ℕ) : Bytes :=
  (Nat.toDigits 10 value).map fun digit => UInt8.ofNat digit.toNat

namespace Portal

/-- `Portal::MAX_HOST_BYTES`. -/
def maxHostBytes : ℕ := 253

/-- `Portal::LOCAL_DOMAIN`. -/
def localDomain : Bytes := ascii "localhost"

/-- The scheme a domain is served under. -/
def expectedScheme (domain : Bytes) : LinkScheme :=
  if domain == localDomain then .http else .https

/-- The authority of a domain. -/
def publicAuthority (domain : Bytes) : PublicPort → Bytes
  | .default => domain
  | .explicit port => domain ++ 58 :: decimal port.toNat

/-- `Portal::new`. -/
def new (domain : Bytes) (scheme : LinkScheme) (port : PublicPort)
    (registries : Suffix → Option Txid) : Except PortalError Portal := do
  ensurePortal (1 ≤ domain.length && domain.length ≤ maxHostBytes)
    (.invalid "portal domain must be 1..253 bytes")
  (domain.splitOn 46).forM fun label => ensurePortal (isDnsLabel label)
    (.invalidDomain domain "must be lowercase DNS labels (a-z, 0-9, hyphen)")
  ensurePortal (Suffix.all.any fun suffix => (registries suffix).isSome)
    (.invalid "configure at least one registry with --registry <suffix>=<genesis>")
  ensurePortal (scheme == expectedScheme domain) (.links (expectedScheme domain) domain)
  .ok { domain, authority := publicAuthority domain port, scheme, registries }

variable (portal : Portal)

/-- `Portal::is_registry`. A transaction id is displayed in reverse. -/
def isRegistry (suffix : Suffix) (genesis : Bytes) : Bool :=
  match portal.registries suffix with
  | none => false
  | some configured => ascii (hexEncode configured.bytes.toList.reverse) == genesis

/-- `Portal::apex_origin`. -/
def apexOrigin : Bytes :=
  portal.scheme.label ++ (ascii "://" ++ portal.authority)

/-- `Portal::site_origin`. -/
def siteOrigin (name : Name) (suffix : Suffix) : Bytes :=
  portal.scheme.label ++ (ascii "://" ++ (name.bytes ++ 46 :: (suffix.label ++ 46 ::
    portal.authority)))

/-- One digit of `{byte:02X}`. -/
def upperDigit (value : ℕ) : UInt8 :=
  if value < 10 then UInt8.ofNat (48 + value) else UInt8.ofNat (55 + value)

/-- A byte of a link that is not available, in `unavailable`. -/
def escapeByte (byte : UInt8) : Bytes :=
  if isAlphanumeric byte || (ascii "-._~").contains byte then [byte]
  else [37, upperDigit (byte.toNat / 16), upperDigit (byte.toNat % 16)]

/-- `Portal::unavailable`. -/
def unavailable (original : Bytes) : Bytes :=
  portal.apexOrigin ++ (ascii "/unavailable?u=" ++ original.flatMap escapeByte)

end Portal

/-! ## Authorities -/

/-- `check_port`. -/
def checkPort (rest : Bytes) (digits : Option Bytes) : Except HostError Unit :=
  if rest.isEmpty then .ok ()
  else
    match digits with
    | none => .error (.malformed "bytes after the IPv6 literal")
    | some digits =>
        if digits.isEmpty || 5 < digits.length || !digits.all (fun byte => 48 ≤ byte && byte ≤ 57) then
          .error (.malformedText digits "invalid port")
        else .ok ()

/-- `str::rsplit_once` at a byte. -/
def rsplitOnce (separator : UInt8) (bytes : Bytes) : Option (Bytes × Bytes) :=
  (splitOnce separator bytes.reverse).map fun (last, front) => (front.reverse, last.reverse)

/-- `without_port`. -/
def withoutPort (header : Bytes) : Except HostError Bytes :=
  if header.head? = some 91 then
    if 93 ∈ header then do
      let literal := header.takeWhile (· != 93) ++ [93]
      let rest := header.drop literal.length
      checkPort rest (if rest.head? = some 58 then some (rest.drop 1) else none)
      .ok literal
    else .error (.malformed "unterminated IPv6 literal")
  else
    match rsplitOnce 58 header with
    | none => .ok header
    | some (host, port) => do
        checkPort port (some port)
        .ok host

/-- `authority`. -/
def authority (header : Bytes) : Except HostError Bytes := do
  let host ← withoutPort header
  if host.isEmpty || Portal.maxHostBytes < host.length then
    .error (.malformed s!"host must be 1..{Portal.maxHostBytes} bytes")
  else if !host.all fun byte => 33 ≤ byte && byte ≤ 126 then
    .error (.malformed "host carries a space, a control byte or non-ASCII")
  else .ok host

/-! ## Hosts -/

/-- `SiteHost`. -/
structure SiteHost where
  name : Name
  suffix : Suffix
  deriving DecidableEq

/-- `Host`. -/
inductive Host where
  | apex
  | site (host : SiteHost)
  | foreign
  deriving DecidableEq

/-- `Name::parse`, with its error as a `HostError`. -/
def parseName (label : Bytes) : Except HostError Name :=
  match Name.parse label with
  | .ok name => .ok name
  | .error cause => .error (.name cause)

/-- The labels before the portal domain, in `site`. -/
def siteOfLabels : List Bytes → Except HostError SiteHost
  | [name, suffix] => do
      let suffix ← Suffix.parse suffix
      if isTxid name then .error .publication
      else
        let name ← parseName name
        .ok { name, suffix }
  | [first, second, third] =>
      if isTxid first then do
        let _ ← Suffix.parse third
        let _ ← parseName second
        .error .registry
      else .error (.malformed "3 labels before the portal domain; expected <name>.<suffix>")
  | [single] => .error (.malformedText single "has no name before the suffix")
  | other => .error (.malformed
      s!"{other.length} labels before the portal domain; expected <name>.<suffix>")

/-- `site`. -/
def site (labels : Bytes) : Except HostError SiteHost :=
  let parts := labels.splitOn 46
  if parts.any List.isEmpty then .error (.malformed "empty label") else siteOfLabels parts

/-- `str::strip_suffix`. -/
def stripSuffix (bytes ending : Bytes) : Option Bytes :=
  if ending.isSuffixOf bytes then some (bytes.take (bytes.length - ending.length)) else none

/-- `classify`. -/
def classify (host : Bytes) (portal : Portal) : Except HostError Host :=
  if host == portal.domain then .ok .apex
  else
    match stripSuffix host portal.domain with
    | none => .ok .foreign
    | some front =>
        match stripSuffix front [46] with
        | none => .ok .foreign
        | some labels => do
            let host ← site labels
            .ok (.site host)

/-! ## Links -/

/-- `Rewrite`. -/
inductive Rewrite where
  | keep
  | to (link : Bytes)
  deriving DecidableEq

/-- `Target` of a link. -/
inductive LinkTarget where
  | site (name : Name) (suffix : Suffix)
  | unavailable
  deriving DecidableEq

/-- `Links::SCHEME`. -/
def linkScheme : Bytes := ascii "urma://"

/-- `canonical`. -/
def canonical (host : Bytes) : Except HostError Unit :=
  if !host.all fun byte => isLabelByte byte || byte == 46 then
    .error (.malformedText host ("is not lowercase ASCII labels " ++
      "(userinfo, port, escapes and uppercase are not canonical)"))
  else if (host.splitOn 46).any List.isEmpty then .error (.malformedText host "has an empty label")
  else .ok ()

/-- The labels before the suffix, in `target`. -/
def targetOfLabels (portal : Portal) (suffix : Suffix) : List Bytes → Except HostError LinkTarget
  | [label] =>
      if isTxid label then .ok .unavailable
      else do
        let name ← parseName label
        .ok (.site name suffix)
  | [genesis, label] =>
      if isTxid genesis then do
        let name ← parseName label
        if portal.isRegistry suffix genesis then .ok (.site name suffix) else .ok .unavailable
      else .error (.malformed "2 labels before the suffix")
  | other => .error (.malformed s!"{other.length} labels before the suffix")

/-- `target`. A split has a last label. -/
def target (host : Bytes) (portal : Portal) : Except HostError LinkTarget :=
  match Text.fromUtf8 host with
  | .error _ => .error .malformedUtf8
  | .ok host => do
      canonical host.bytes
      match (host.bytes.splitOn 46).getLast? with
      | none => .error (.malformed "empty host")
      | some suffix => do
          let suffix ← Suffix.parse suffix
          targetOfLabels portal suffix (host.bytes.splitOn 46).dropLast

/-- `site_link`. -/
def siteLink (portal : Portal) (name : Name) (suffix : Suffix) (tail : Bytes) : Bytes :=
  portal.siteOrigin name suffix ++ (if tail.head? = some 47 then tail else 47 :: tail)

/-- A byte that ends the host of a link. -/
def endsHost (byte : UInt8) : Bool :=
  byte == 47 || byte == 63 || byte == 35

/-- `rewrite`. -/
def rewrite (candidate : Bytes) (portal : Portal) : Rewrite :=
  if !linkScheme.isPrefixOf candidate then .keep
  else
    let rest := candidate.drop linkScheme.length
    let host := rest.takeWhile (!endsHost ·)
    let tail := rest.dropWhile (!endsHost ·)
    if tail.any fun byte => byte ≤ 32 || byte == 127 || byte == 92 then .keep
    else
      match target host portal with
      | .ok (.site name suffix) => .to (siteLink portal name suffix tail)
      | .ok .unavailable => .to (portal.unavailable candidate)
      | .error _ => .keep

end Urma.Web
