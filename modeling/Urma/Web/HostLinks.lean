import Urma.Web.Host

/-!
# Links to the sites of a portal

What a portal writes as a host is read back by the same portal: the apex always, and a site exactly
when its host is within the length of a host. A link is followed as any client does.
-/

namespace Urma.Web

open Names (Name)

/-! ## Following a link -/

/-- The parts of a link a client asks for. -/
structure Followed where
  authority : Bytes
  path : Bytes
  query : Bytes
  fragment : Bytes
  deriving DecidableEq

/-- The authority of a link stands after `://`, up to the path, the query or the fragment. -/
def follow (link : Bytes) : Followed :=
  let rest := (link.dropWhile (· != 58)).drop 3
  let tail := rest.dropWhile (!endsHost ·)
  let front := tail.takeWhile (· != 35)
  { authority := rest.takeWhile (!endsHost ·)
    path := front.takeWhile (· != 63)
    query := front.dropWhile (· != 63)
    fragment := tail.dropWhile (· != 35) }

/-- An empty path asks for the root. -/
def orRoot (path : Bytes) : Bytes :=
  if path.isEmpty then [47] else path

/-- The portal maps the authority of a link to a site. -/
def Reaches (portal : Portal) (link : Bytes) (name : Name) (suffix : Suffix) : Prop :=
  ∃ host, authority (follow link).authority = .ok host ∧
    classify host portal = .ok (.site ⟨name, suffix⟩)

/-- The host of a site is no longer than a host may be. -/
def Fits (portal : Portal) (name : Name) (suffix : Suffix) : Prop :=
  name.bytes.length + 1 + suffix.label.length + 1 + portal.domain.length ≤ Portal.maxHostBytes

/-! ## Bytes -/

/-- A byte of a host: of a label, or a dot. -/
def isHostByte (byte : UInt8) : Bool :=
  isLabelByte byte || byte == 46

/-- A byte of a host is graphic, and ends neither the host nor its port. -/
theorem isHostByte_cases {byte : UInt8} (h : isHostByte byte = true) :
    (33 ≤ byte && byte ≤ 126) = true ∧ endsHost byte = false ∧ byte ≠ 58 ∧ byte ≠ 91 := by
  have hall : ∀ n : Fin 256, isHostByte (UInt8.ofNat n) = true →
      (33 ≤ UInt8.ofNat n && UInt8.ofNat n ≤ 126) = true ∧ endsHost (UInt8.ofNat n) = false ∧
        UInt8.ofNat n ≠ 58 ∧ UInt8.ofNat n ≠ 91 := by
    decide +kernel
  have hbyte := hall ⟨byte.toNat, byte.toNat_lt⟩
  rw [UInt8.ofNat_toNat] at hbyte
  exact hbyte h

theorem isHostByte_of_label {byte : UInt8} (h : isLabelByte byte = true) :
    isHostByte byte = true := by
  rw [isHostByte, h, Bool.true_or]

theorem label_ne_dot {byte : UInt8} (h : isLabelByte byte = true) : byte ≠ 46 := by
  rintro rfl
  exact absurd h (by decide)

/-- A byte of a split text is the separator or in one of the parts. -/
theorem mem_splitOn {bytes : Bytes} {byte separator : UInt8} (hmem : byte ∈ bytes)
    (hne : byte ≠ separator) : ∃ part ∈ bytes.splitOn separator, byte ∈ part := by
  induction bytes with
  | nil => cases hmem
  | cons first rest ih =>
      rw [List.splitOn_cons_eq_if_modifyHead]
      by_cases hfirst : first = separator
      · rw [if_pos (beq_iff_eq.mpr hfirst)]
        rcases List.mem_cons.mp hmem with heq | hmem
        · exact absurd (heq.trans hfirst) hne
        · obtain ⟨part, hpart, hbyte⟩ := ih hmem
          exact ⟨part, List.mem_cons_of_mem _ hpart, hbyte⟩
      · rw [if_neg (by rw [beq_iff_eq]; exact hfirst)]
        cases hsplit : rest.splitOn separator with
        | nil => exact absurd hsplit (List.splitOn_ne_nil _ _)
        | cons part parts =>
            rw [List.modifyHead_cons]
            rcases List.mem_cons.mp hmem with heq | hmem
            · exact ⟨first :: part, List.mem_cons_self, heq ▸ List.mem_cons_self⟩
            · obtain ⟨other, hother, hbyte⟩ := ih hmem
              rw [hsplit] at hother
              rcases List.mem_cons.mp hother with rfl | hother
              · exact ⟨first :: other, List.mem_cons_self, List.mem_cons_of_mem _ hbyte⟩
              · exact ⟨other, List.mem_cons_of_mem _ hother, hbyte⟩

/-! ## Cuts -/

section Cuts

variable {front rest : Bytes} {separator : UInt8}

theorem splitOnce_append (h : separator ∉ front) :
    splitOnce separator (front ++ separator :: rest) = some (front, rest) := by
  have hpass : ∀ byte ∈ front, (byte != separator) = true := by
    intro byte hmem
    rw [bne_iff_ne]
    rintro rfl
    exact h hmem
  rw [splitOnce, if_pos (List.mem_append_right _ List.mem_cons_self),
    List.takeWhile_append_of_pos hpass, List.dropWhile_append_of_pos hpass, List.takeWhile_cons,
    List.dropWhile_cons, bne_self_eq_false, if_neg Bool.false_ne_true, if_neg Bool.false_ne_true,
    List.append_nil]
  rfl

theorem rsplitOnce_append (h : separator ∉ rest) :
    rsplitOnce separator (front ++ separator :: rest) = some (front, rest) := by
  have hreverse : (front ++ separator :: rest).reverse =
      rest.reverse ++ separator :: front.reverse := by
    rw [List.reverse_append, List.reverse_cons, List.append_assoc]
    rfl
  rw [rsplitOnce, hreverse, splitOnce_append (by rw [List.mem_reverse]; exact h), Option.map_some]
  show some (front.reverse.reverse, rest.reverse.reverse) = _
  rw [List.reverse_reverse, List.reverse_reverse]

theorem rsplitOnce_none (h : separator ∉ front) : rsplitOnce separator front = none := by
  rw [rsplitOnce, splitOnce, if_neg (by rw [List.mem_reverse]; exact h), Option.map_none]

theorem stripSuffix_append (front ending : Bytes) :
    stripSuffix (front ++ ending) ending = some front := by
  rw [stripSuffix, if_pos (by rw [List.isSuffixOf_iff_suffix]; exact List.suffix_append _ _),
    List.length_append, Nat.add_sub_cancel, List.take_left]

/-- A text is cut at the first byte of its second part that ends the first. -/
theorem takeWhile_endsHost (hfront : ∀ byte ∈ front, endsHost byte = false)
    (hrest : ∀ byte, rest.head? = some byte → endsHost byte = true) :
    (front ++ rest).takeWhile (!endsHost ·) = front ∧
      (front ++ rest).dropWhile (!endsHost ·) = rest := by
  have hpass : ∀ byte ∈ front, (!endsHost byte) = true := by
    intro byte hmem
    rw [hfront byte hmem]
    rfl
  rw [List.takeWhile_append_of_pos hpass, List.dropWhile_append_of_pos hpass]
  cases rest with
  | nil => exact ⟨List.append_nil _, rfl⟩
  | cons first rest =>
      rw [List.takeWhile_cons, List.dropWhile_cons, hrest first rfl]
      exact ⟨List.append_nil _, rfl⟩

end Cuts

/-! ## Ports -/

/-- A number of a `u16` has from one to five digits. -/
theorem decimal_port (port : UInt16) :
    decimal port.toNat ≠ [] ∧ (decimal port.toNat).length ≤ 5 ∧
      (∀ byte ∈ decimal port.toNat, (48 ≤ byte && byte ≤ 57) = true) := by
  refine ⟨?_, ?_, ?_⟩
  · rw [decimal, Ne, List.map_eq_nil_iff]
    exact Nat.toDigits_ne_nil
  · rw [decimal, List.length_map, Nat.length_toDigits_le_iff (by decide) (by decide)]
    have hport := port.toNat_lt
    omega
  · intro byte hmem
    obtain ⟨digit, hdigit, rfl⟩ := List.mem_map.mp hmem
    have hrange := Nat.isDigit_of_mem_toDigits (by decide) (by decide) hdigit
    rw [Char.isDigit_iff_toNat] at hrange
    change 48 ≤ digit.toNat ∧ digit.toNat ≤ 57 at hrange
    have hnat : (UInt8.ofNat digit.toNat).toNat = digit.toNat :=
      UInt8.toNat_ofNat_of_lt' (by show digit.toNat < 256; omega)
    rw [Bool.and_eq_true, decide_eq_true_eq, decide_eq_true_eq, UInt8.le_iff_toNat_le,
      UInt8.le_iff_toNat_le, hnat]
    exact hrange

theorem checkPort_decimal (port : UInt16) :
    checkPort (decimal port.toNat) (some (decimal port.toNat)) = .ok () := by
  obtain ⟨hne, hlength, hdigits⟩ := decimal_port port
  have hempty : (decimal port.toNat).isEmpty = false := by
    rw [List.isEmpty_eq_false_iff]
    exact hne
  rw [checkPort, hempty, if_neg Bool.false_ne_true]
  simp only [Bool.false_or, Bool.or_eq_true, decide_eq_true_eq, Bool.not_eq_true']
  rw [if_neg]
  rintro (hlong | hnot)
  · omega
  · rw [List.all_eq_true.mpr hdigits] at hnot
    cases hnot

/-! ## Authorities -/

section Authority

variable {host : Bytes} {port : PublicPort}

/-- The port of an authority is dropped. -/
theorem withoutPort_public (hhost : ∀ byte ∈ host, isHostByte byte = true) :
    withoutPort (Portal.publicAuthority host port) = .ok host := by
  have hcolon : (58 : UInt8) ∉ host := fun hmem => (isHostByte_cases (hhost 58 hmem)).2.2.1 rfl
  have hbracket : host.head? ≠ some 91 := fun hhead =>
    (isHostByte_cases (hhost 91 (List.mem_of_mem_head? hhead))).2.2.2 rfl
  cases port with
  | default =>
      rw [Portal.publicAuthority, withoutPort, if_neg hbracket, rsplitOnce_none hcolon]
  | explicit port =>
      have hhead : (host ++ 58 :: decimal port.toNat).head? ≠ some 91 := by
        cases host with
        | nil =>
            intro hhead
            cases hhead
        | cons first rest => exact hbracket
      have hdigits : (58 : UInt8) ∉ decimal port.toNat := fun hmem =>
        absurd ((decimal_port port).2.2 58 hmem) (by decide)
      rw [Portal.publicAuthority, withoutPort, if_neg hhead, rsplitOnce_append hdigits]
      simp only [checkPort_decimal, Except.ok_bind]

/-- **An authority is read back as its host**, if the host is within its length. -/
theorem authority_public (hne : host ≠ []) (hhost : ∀ byte ∈ host, isHostByte byte = true) :
    (host.length ≤ Portal.maxHostBytes →
      authority (Portal.publicAuthority host port) = .ok host) ∧
    (Portal.maxHostBytes < host.length →
      authority (Portal.publicAuthority host port) =
        .error (.malformed s!"host must be 1..{Portal.maxHostBytes} bytes")) := by
  have hempty : host.isEmpty = false := by
    rw [List.isEmpty_eq_false_iff]
    exact hne
  have hgraphic : (host.all fun byte => 33 ≤ byte && byte ≤ 126) = true := by
    rw [List.all_eq_true]
    exact fun byte hmem => (isHostByte_cases (hhost byte hmem)).1
  rw [authority, withoutPort_public hhost, Except.ok_bind, hempty, hgraphic]
  constructor
  · intro hlength
    rw [Bool.false_or, if_neg (by rw [decide_eq_true_eq]; omega)]
    rfl
  · intro hlength
    rw [Bool.false_or, if_pos (decide_eq_true hlength)]

end Authority

/-! ## Names and suffixes -/

/-- A name is a label with no dot in it. -/
theorem name_label (name : Name) :
    1 ≤ name.bytes.length ∧ name.bytes.length ≤ Name.maxBytes ∧
      ∀ byte ∈ name.bytes, isLabelByte byte = true := by
  have hparsed := name.parsed
  simp only [Name.check, Except.bind_eq_ok, ensure_eq_ok, Bool.and_eq_true, decide_eq_true_eq,
    List.all_eq_true] at hparsed
  obtain ⟨_, hlength, _, hbytes, _⟩ := hparsed
  exact ⟨hlength.1, hlength.2, hbytes⟩

theorem parseName_bytes (name : Name) : parseName name.bytes = .ok name := by
  have hparse : Name.parse name.bytes = .ok name := by
    rw [Name.parse]
    split
    · next h =>
        rfl
    · next error h =>
        rw [name.parsed] at h
        cases h
  rw [parseName, hparse]

/-- A name is too short to be a transaction id. -/
theorem isTxid_name (name : Name) : isTxid name.bytes = false := by
  have hlength := (name_label name).2.1
  have hne : (name.bytes.length == 64) = false := by
    rw [beq_eq_false_iff_ne]
    intro heq
    rw [heq] at hlength
    exact absurd hlength (by decide)
  rw [isTxid, hne, Bool.false_and]

namespace Suffix

theorem parse_label (suffix : Suffix) : parse suffix.label = .ok suffix := by
  cases suffix
  · rfl
  · rfl
  · rfl
  · rfl

theorem label_bytes (suffix : Suffix) :
    suffix.label ≠ [] ∧ ∀ byte ∈ suffix.label, isLabelByte byte = true := by
  cases suffix
  · decide +kernel
  · decide +kernel
  · decide +kernel
  · decide +kernel

end Suffix

/-! ## Hosts -/

/-- **The labels of a site are read back**: neither has a dot in it. -/
theorem site_labels (name : Name) (suffix : Suffix) :
    site (name.bytes ++ 46 :: suffix.label) = .ok ⟨name, suffix⟩ := by
  obtain ⟨hname, _, hnameBytes⟩ := name_label name
  obtain ⟨hsuffix, hsuffixBytes⟩ := suffix.label_bytes
  have hsplit : (name.bytes ++ 46 :: suffix.label).splitOn 46 = [name.bytes, suffix.label] := by
    rw [List.splitOn_append_cons_self_of_not_mem
        (fun hmem => label_ne_dot (hnameBytes 46 hmem) rfl),
      List.splitOn_eq_singleton (fun hmem => label_ne_dot (hsuffixBytes 46 hmem) rfl)]
  have hnameNe : name.bytes.isEmpty = false := by
    rw [List.isEmpty_eq_false_iff, ← List.length_pos_iff]
    exact hname
  have hsuffixNe : suffix.label.isEmpty = false := by
    rw [List.isEmpty_eq_false_iff]
    exact hsuffix
  have hparts : [name.bytes, suffix.label].any List.isEmpty = false := by
    rw [List.any_cons, List.any_cons, hnameNe, hsuffixNe]
    rfl
  rw [site, hsplit, hparts, if_neg Bool.false_ne_true]
  simp only [siteOfLabels, Suffix.parse_label, Except.ok_bind, isTxid_name, Bool.false_eq_true,
    if_false, parseName_bytes]

namespace Portal

variable {domain : Bytes} {scheme : LinkScheme} {port : PublicPort}
  {registries : Suffix → Option Txid} {portal : Portal}

/-- **A portal that was accepted**: its domain is a host, and its authority is that of the domain. -/
theorem new_eq_ok (h : new domain scheme port registries = .ok portal) :
    portal.domain = domain ∧ portal.authority = publicAuthority domain port ∧ domain ≠ [] ∧
      domain.length ≤ maxHostBytes ∧ ∀ byte ∈ domain, isHostByte byte = true := by
  simp only [new, Except.bind_eq_ok, ensurePortal_eq_ok, Bool.and_eq_true, decide_eq_true_eq,
    Except.forM_eq_ok] at h
  obtain ⟨_, ⟨hpos, hlength⟩, _, hlabels, _, _, _, _, h⟩ := h
  cases h
  refine ⟨rfl, rfl, List.length_pos_iff.mp hpos, hlength, ?_⟩
  intro byte hmem
  by_cases hdot : byte = 46
  · rw [hdot]
    rfl
  · obtain ⟨label, hlabel, hbyte⟩ := mem_splitOn hmem hdot
    have hdns := hlabels label hlabel
    rw [isDnsLabel, Bool.and_eq_true, List.all_eq_true] at hdns
    exact isHostByte_of_label (hdns.2 byte hbyte)

/-- The host of a site. -/
def siteHost (portal : Portal) (name : Name) (suffix : Suffix) : Bytes :=
  name.bytes ++ 46 :: (suffix.label ++ 46 :: portal.domain)

theorem siteHost_length (portal : Portal) (name : Name) (suffix : Suffix) :
    (portal.siteHost name suffix).length =
      name.bytes.length + 1 + suffix.label.length + 1 + portal.domain.length := by
  rw [siteHost, List.length_append, List.length_cons, List.length_append, List.length_cons]
  omega

theorem siteHost_bytes (h : new domain scheme port registries = .ok portal) (name : Name)
    (suffix : Suffix) : ∀ byte ∈ portal.siteHost name suffix, isHostByte byte = true := by
  obtain ⟨rfl, _, _, _, hdomain⟩ := new_eq_ok h
  intro byte hmem
  rcases List.mem_append.mp hmem with hname | hmem
  · exact isHostByte_of_label ((name_label name).2.2 byte hname)
  · rcases List.mem_cons.mp hmem with rfl | hmem
    · rfl
    · rcases List.mem_append.mp hmem with hsuffix | hmem
      · exact isHostByte_of_label (suffix.label_bytes.2 byte hsuffix)
      · rcases List.mem_cons.mp hmem with rfl | hmem
        · rfl
        · exact hdomain byte hmem

theorem siteHost_ne_nil (portal : Portal) (name : Name) (suffix : Suffix) :
    portal.siteHost name suffix ≠ [] := by
  intro hnil
  have hlength := siteHost_length portal name suffix
  rw [hnil, List.length_nil] at hlength
  omega

/-- **The host of a site is classified as the site**: it is longer than the domain it ends with. -/
theorem classify_siteHost (portal : Portal) (name : Name) (suffix : Suffix) :
    classify (portal.siteHost name suffix) portal = .ok (.site ⟨name, suffix⟩) := by
  have hne : (portal.siteHost name suffix == portal.domain) = false := by
    rw [beq_eq_false_iff_ne]
    intro heq
    have hlength := siteHost_length portal name suffix
    rw [heq] at hlength
    omega
  have hdomain : portal.siteHost name suffix =
      ((name.bytes ++ 46 :: suffix.label) ++ [46]) ++ portal.domain := by
    rw [siteHost]
    simp only [List.append_assoc, List.cons_append, List.nil_append]
  rw [classify, hne, if_neg Bool.false_ne_true, hdomain, stripSuffix_append]
  simp only [stripSuffix_append, site_labels, Except.ok_bind]

/-- The authority of a site is the public one of its host. -/
theorem authority_site (h : new domain scheme port registries = .ok portal) (name : Name)
    (suffix : Suffix) :
    name.bytes ++ 46 :: (suffix.label ++ 46 :: portal.authority) =
      publicAuthority (portal.siteHost name suffix) port := by
  obtain ⟨rfl, hauthority, _⟩ := new_eq_ok h
  rw [hauthority]
  cases port with
  | default => rfl
  | explicit port =>
      show name.bytes ++ 46 :: (suffix.label ++ 46 :: (portal.domain ++ 58 :: decimal port.toNat)) =
        (name.bytes ++ 46 :: (suffix.label ++ 46 :: portal.domain)) ++ 58 :: decimal port.toNat
      simp only [List.append_assoc, List.cons_append]

theorem publicAuthority_endsHost {host : Bytes} (hhost : ∀ byte ∈ host, isHostByte byte = true) :
    ∀ byte ∈ publicAuthority host port, endsHost byte = false := by
  intro byte hmem
  cases port with
  | default => exact (isHostByte_cases (hhost byte hmem)).2.1
  | explicit port =>
      rcases List.mem_append.mp hmem with hmem | hmem
      · exact (isHostByte_cases (hhost byte hmem)).2.1
      · rcases List.mem_cons.mp hmem with rfl | hmem
        · rfl
        · have hdigit := (decimal_port port).2.2 byte hmem
          refine (isHostByte_cases (isHostByte_of_label ?_)).2.1
          rw [isLabelByte, hdigit, Bool.or_true, Bool.true_or]

end Portal

/-! ## Links -/

section Links

variable {domain : Bytes} {scheme : LinkScheme} {port : PublicPort}
  {registries : Suffix → Option Txid} {portal : Portal}

/-- What a client makes of the part of a link after its authority. -/
def followTail (authority tail : Bytes) : Followed :=
  let front := tail.takeWhile (· != 35)
  { authority
    path := front.takeWhile (· != 63)
    query := front.dropWhile (· != 63)
    fragment := tail.dropWhile (· != 35) }

/-- A link is followed to its authority. -/
theorem follow_link {label host tail : Bytes} (hlabel : ∀ byte ∈ label, byte ≠ 58)
    (hhost : ∀ byte ∈ host, endsHost byte = false)
    (htail : ∀ byte, tail.head? = some byte → endsHost byte = true) :
    follow (label ++ (ascii "://" ++ (host ++ tail))) = followTail host tail := by
  have hpass : ∀ byte ∈ label, (byte != 58) = true := fun byte hmem => by
    rw [bne_iff_ne]
    exact hlabel byte hmem
  have hrest : ((label ++ (ascii "://" ++ (host ++ tail))).dropWhile (· != 58)).drop 3 =
      host ++ tail := by
    rw [List.dropWhile_append_of_pos hpass]
    rfl
  obtain ⟨hfront, hback⟩ := takeWhile_endsHost hhost htail
  rw [follow, hrest, hfront, hback]
  rfl

theorem scheme_label (scheme : LinkScheme) : ∀ byte ∈ scheme.label, byte ≠ 58 := by
  cases scheme
  · decide +kernel
  · decide +kernel

/-- A link to a site is followed to the authority of the site. -/
theorem follow_site (h : Portal.new domain scheme port registries = .ok portal) (name : Name)
    (suffix : Suffix) {tail : Bytes}
    (htail : ∀ byte, tail.head? = some byte → endsHost byte = true) :
    follow (portal.siteOrigin name suffix ++ tail) =
      followTail (Portal.publicAuthority (portal.siteHost name suffix) port) tail := by
  have hends := @Portal.publicAuthority_endsHost port _ (Portal.siteHost_bytes h name suffix)
  rw [← follow_link (scheme_label portal.scheme) hends htail, ← Portal.authority_site h,
    Portal.siteOrigin]
  simp only [List.append_assoc, List.cons_append]

/-- **A link to a site reaches it exactly when the host of the site fits.** -/
theorem reaches_iff (h : Portal.new domain scheme port registries = .ok portal) (name : Name)
    (suffix : Suffix) {tail : Bytes}
    (htail : ∀ byte, tail.head? = some byte → endsHost byte = true) :
    Reaches portal (portal.siteOrigin name suffix ++ tail) name suffix ↔
      Fits portal name suffix := by
  have hauthority := @authority_public _ port (Portal.siteHost_ne_nil portal name suffix)
    (Portal.siteHost_bytes h name suffix)
  rw [Portal.siteHost_length] at hauthority
  rw [Reaches, follow_site h name suffix htail]
  constructor
  · rintro ⟨host, hhost, _⟩
    rw [Fits]
    by_contra hlong
    rw [followTail, hauthority.2 (Nat.lt_of_not_le hlong)] at hhost
    cases hhost
  · intro hfits
    exact ⟨_, hauthority.1 hfits, Portal.classify_siteHost portal name suffix⟩

/-- The tail of a site link asks for what the tail of the link asks for. -/
theorem followTail_siteLink {authority other tail : Bytes}
    (htail : ∀ byte, tail.head? = some byte → endsHost byte = true) :
    (followTail authority (if tail.head? = some 47 then tail else 47 :: tail)).path =
        orRoot (followTail other tail).path ∧
      (followTail authority (if tail.head? = some 47 then tail else 47 :: tail)).query =
        (followTail other tail).query ∧
      (followTail authority (if tail.head? = some 47 then tail else 47 :: tail)).fragment =
        (followTail other tail).fragment := by
  cases tail with
  | nil => exact ⟨rfl, rfl, rfl⟩
  | cons first rest =>
      have hfirst := htail first rfl
      rw [endsHost, Bool.or_eq_true, Bool.or_eq_true, beq_iff_eq, beq_iff_eq, beq_iff_eq] at hfirst
      rcases hfirst with (rfl | rfl) | rfl
      · exact ⟨rfl, rfl, rfl⟩
      · exact ⟨rfl, rfl, rfl⟩
      · exact ⟨rfl, rfl, rfl⟩

/-- What `rewrite` makes a site link of. -/
theorem rewrite_site {candidate link : Bytes} {name : Name} {suffix : Suffix}
    (hrewrite : rewrite candidate portal = .to link)
    (htarget : target (follow candidate).authority portal = .ok (.site name suffix)) :
    ∃ tail, (∀ byte, tail.head? = some byte → endsHost byte = true) ∧
      follow candidate = followTail (follow candidate).authority tail ∧
      link = siteLink portal name suffix tail := by
  rw [rewrite] at hrewrite
  by_cases hscheme : linkScheme.isPrefixOf candidate = true
  · obtain ⟨rest, rfl⟩ := List.isPrefixOf_iff_prefix.mp hscheme
    have hrest : (linkScheme ++ rest).drop linkScheme.length = rest := List.drop_left
    rw [hscheme, hrest] at hrewrite
    simp only [Bool.not_true, Bool.false_eq_true, if_false] at hrewrite
    have hfollow : follow (linkScheme ++ rest) =
        followTail (rest.takeWhile (!endsHost ·)) (rest.dropWhile (!endsHost ·)) := rfl
    rw [hfollow, followTail] at htarget
    refine ⟨rest.dropWhile (!endsHost ·), ?_, hfollow, ?_⟩
    · intro byte hbyte
      have hne : rest.dropWhile (!endsHost ·) ≠ [] := by
        intro hnil
        rw [hnil] at hbyte
        cases hbyte
      have hhead := List.head_dropWhile_not (!endsHost ·) hne
      rw [List.head?_eq_some_head hne] at hbyte
      rw [Option.some.inj hbyte, Bool.not_eq_false'] at hhead
      exact hhead
    · rw [htarget] at hrewrite
      split at hrewrite
      · cases hrewrite
      · cases hrewrite
        rfl
  · rw [Bool.not_eq_true] at hscheme
    rw [hscheme] at hrewrite
    cases hrewrite

/-- **The links of a portal resolve back exactly where the host of the site fits.** The apex always
does. An origin of a site, and a site link that `rewrite` makes, is followed to its name and suffix
if and only if `<name>.<suffix>.<domain>` is at most 253 bytes; the path, the query and the
fragment of the link are then its own. -/
theorem portal_links_resolve (h : Portal.new domain scheme port registries = .ok portal) :
    (authority portal.authority = .ok portal.domain ∧ classify portal.domain portal = .ok .apex) ∧
    ∀ name suffix,
      (Reaches portal (portal.siteOrigin name suffix) name suffix ↔ Fits portal name suffix) ∧
      ∀ candidate link, rewrite candidate portal = .to link →
        target (follow candidate).authority portal = .ok (.site name suffix) →
          ((Reaches portal link name suffix ∧
            (follow link).path = orRoot (follow candidate).path ∧
            (follow link).query = (follow candidate).query ∧
            (follow link).fragment = (follow candidate).fragment) ↔ Fits portal name suffix) := by
  obtain ⟨rfl, hauthority, hne, hlength, hdomain⟩ := Portal.new_eq_ok h
  refine ⟨⟨?_, ?_⟩, ?_⟩
  · rw [hauthority]
    exact (authority_public hne hdomain).1 hlength
  · rw [classify, beq_self_eq_true, if_pos rfl]
  · intro name suffix
    constructor
    · have hempty : ∀ byte, ([] : Bytes).head? = some byte → endsHost byte = true := by
        intro byte hbyte
        cases hbyte
      have hreaches := reaches_iff h name suffix hempty
      rw [List.append_nil] at hreaches
      exact hreaches
    · intro candidate link hrewrite htarget
      obtain ⟨tail, htail, hcandidate, rfl⟩ := rewrite_site hrewrite htarget
      have hsiteTail : ∀ byte, (if tail.head? = some 47 then tail else 47 :: tail).head? =
          some byte → endsHost byte = true := by
        intro byte hbyte
        split at hbyte
        · exact htail byte hbyte
        · cases hbyte
          rfl
      rw [siteLink, hcandidate, reaches_iff h name suffix hsiteTail,
        follow_site h name suffix hsiteTail]
      exact and_iff_left (followTail_siteLink htail)

end Links

/-! ## Two portals -/

namespace Sample

def registries : Suffix → Option Txid
  | .ltc => some ⟨Vector.replicate 32 7⟩
  | _ => none

/-- The name `a`. -/
def siteName : Name := ⟨[97], Name.check_letter⟩

/-- A portal on this machine. -/
def localPortal : Portal where
  domain := ascii "localhost"
  authority := ascii "localhost:8080"
  scheme := .http
  registries

theorem new_localPortal :
    Portal.new (ascii "localhost") .http (.explicit 8080) registries = .ok localPortal := rfl

/-- Four labels of 62 bytes, 251 bytes with their dots. -/
def longDomain : Bytes :=
  let label : Bytes := List.replicate 62 97
  label ++ 46 :: (label ++ 46 :: (label ++ 46 :: label))

/-- A portal under a long domain. -/
def longPortal : Portal where
  domain := longDomain
  authority := longDomain
  scheme := .https
  registries

set_option maxRecDepth 4000 in
theorem new_longPortal : Portal.new longDomain .https .default registries = .ok longPortal := rfl

end Sample

/-- The link to `urma://a.ltc?q` on this machine. -/
theorem portal_links_resolve_local :
    (Reaches Sample.localPortal (ascii "http://a.ltc.localhost:8080/?q") Sample.siteName .ltc ∧
      (follow (ascii "http://a.ltc.localhost:8080/?q")).path = [47] ∧
      (follow (ascii "http://a.ltc.localhost:8080/?q")).query = ascii "?q" ∧
      (follow (ascii "http://a.ltc.localhost:8080/?q")).fragment = []) ↔
        Fits Sample.localPortal Sample.siteName .ltc :=
  ((portal_links_resolve Sample.new_localPortal).2 Sample.siteName .ltc).2
    (ascii "urma://a.ltc?q") (ascii "http://a.ltc.localhost:8080/?q") (by decide +kernel) (by rfl)

/-- A domain of 251 bytes is accepted, and no host of a site fits under it. -/
theorem portal_links_false :
    Portal.new Sample.longDomain .https .default Sample.registries = .ok Sample.longPortal ∧
      ¬ Reaches Sample.longPortal (Sample.longPortal.siteOrigin Sample.siteName .ltc)
        Sample.siteName .ltc := by
  refine ⟨Sample.new_longPortal, ?_⟩
  have hempty : ∀ byte, ([] : Bytes).head? = some byte → endsHost byte = true := by
    intro byte hbyte
    cases hbyte
  rw [← List.append_nil (Sample.longPortal.siteOrigin Sample.siteName .ltc),
    reaches_iff Sample.new_longPortal Sample.siteName .ltc hempty, Fits]
  decide +kernel

end Urma.Web
