import Urma.P2p.HeaderAnswer

/-!
# Which chain of an honest peer is adopted

`sync_from` ends with the chain of an honest peer exactly if the first answer has more work above
the fork than the chain held: an answer is compared with all that is held above the fork, and one
that is lighter ends the call. After that every answer only adds. The offsets of a request grow
apart no faster than they fall below the tip, so a fork that is not deep is always in reach.
-/

namespace Urma.P2p

open Chain Lib Urma.Runtime

/-! ## All answers -/

section
variable {Addr : Type} {client : Client Addr} (codec : HeaderCodec) {source : HeaderSource}
  {opened : HeaderChain} {below branch inPlay : List Header}

theorem persist_working {machine : Machine} (hreserves : machine.reserves = true)
    (hwrites : machine.writeReplace = .ok ()) (chain : HeaderChain) (file : Option Bytes) :
    chain.persist codec machine file = (.ok (), some (chain.headers.flatMap codec.serialize)) := by
  rw [HeaderChain.persist, if_pos hreserves, hwrites]
  rfl

variable (hcrate : client.pow.Lawful) (hfair : Plausible client.pow opened.chain inPlay)
  (hhonest : HonestChain client.pow opened below branch)
  (hplay : ∀ header ∈ below ++ branch, header ∈ inPlay)
  (hsource : HonestSource client.pow source below branch)
include hcrate hfair hhonest hplay hsource

/-- **One round** with an honest peer. -/
theorem syncRounds_succ {state : SyncState Addr}
    (hreached : opened.Reached client.pow state.headers inPlay) (rounds round : ℕ)
    (advanced : Bool) :
    let shared := Fork.shared state.headers.headers branch
    let base := requestBase (state.headers.headers.length - 1) shared
    state.headers.headers.length + (served branch base shared).length ≤ headerCacheMax →
    if totalWork client.pow (state.headers.headers.drop shared) <
        totalWork client.pow (served branch base shared) then
      ∃ next : SyncState Addr, opened.Reached client.pow next.headers inPlay ∧
        next.headers.headers = branch.take (base + 1 + maxHeadersPerMessage) ∧
        next.file = some (next.headers.headers.flatMap codec.serialize) ∧
        syncRounds client codec source (rounds + 1) round advanced state =
          if branch.length < base + 1 + maxHeadersPerMessage then some (.ok true, next)
          else syncRounds client codec source rounds (round + 1) true next
    else
      ∃ last : SyncState Addr, last.headers = state.headers ∧ last.file = state.file ∧
        syncRounds client codec source (rounds + 1) round advanced state =
          some (.ok advanced, last) := by
  intro shared base hcapacity
  obtain ⟨now, hnow, hclock, htimes⟩ := hsource.horizon round
  have hpositive := shared_pos hreached hhonest
  have hbase := (@requestBase_spec (state.headers.headers.length - 1) _ hpositive).2
  have hanswer : source.requestHeaders round (requestLocator client.pow state.headers) =
      .ok ((branch.drop (base + 1)).take maxHeadersPerMessage) := by
    rw [hsource.answers, answer_eq hreached hfair hhonest hplay]
  have hextend := extend_answer hcrate hreached hfair hhonest hplay hbase hcapacity hclock htimes
  dsimp only at hextend
  split
  · next hmore =>
      rw [if_pos hmore] at hextend
      obtain ⟨next, extension, hnext, hkind, hheaders⟩ := hextend
      have hgrown := @Runtime.HeaderChain.Reached.extend client.pow state.headers hcrate opened
        inPlay ((branch.drop (base + 1)).take maxHeadersPerMessage) now hreached hfair
        fun header hheader => hplay header (List.mem_append_right _
          (List.mem_of_mem_drop (List.mem_of_mem_take hheader)))
      rw [hnext] at hgrown
      have hpersist := persist_working codec (hsource.reserves round)
        (hsource.writes round) next state.file
      have hsize : ((branch.drop (base + 1)).take maxHeadersPerMessage).length <
          maxHeadersPerMessage ↔ branch.length < base + 1 + maxHeadersPerMessage := by
        rw [List.length_take, List.length_drop]
        have hmany : 0 < maxHeadersPerMessage := by decide
        omega
      refine ⟨({ state with headers := next, file := some (next.headers.flatMap codec.serialize) }
        : SyncState Addr).record client ((branch.drop (base + 1)).take maxHeadersPerMessage)
          extension, hgrown, hheaders, rfl, ?_⟩
      rw [syncRounds, hanswer]
      dsimp only
      rw [hnow]
      dsimp only
      rw [hnext]
      cases extension with
      | ignored => exact absurd rfl hkind
      | appended count =>
          dsimp only
          rw [hpersist]
          dsimp only
          simp only [hsize]
      | reorganized forkHeight count =>
          dsimp only
          rw [hpersist]
          dsimp only
          simp only [hsize]
  · next hless =>
      rw [if_neg hless] at hextend
      refine ⟨({ state with headers := state.headers } : SyncState Addr).record client
        ((branch.drop (base + 1)).take maxHeadersPerMessage) .ignored, rfl, rfl, ?_⟩
      rw [syncRounds, hanswer]
      dsimp only
      rw [hnow]
      dsimp only
      rw [hextend]

/-- **Once the chain is a start of the peer's**, the rest follows, at least one header a round. -/
theorem syncRounds_rest (hcapacity : branch.length ≤ headerCacheMax) {rounds count : ℕ}
    {state : SyncState Addr} (hreached : opened.Reached client.pow state.headers inPlay)
    (hheaders : state.headers.headers = branch.take count) (hcount : count ≤ branch.length)
    (hfile : state.file = some (state.headers.headers.flatMap codec.serialize))
    (hrounds : branch.length - count < rounds) (round : ℕ) :
    ∃ last : SyncState Addr, syncRounds client codec source rounds round true state =
        some (.ok true, last) ∧ opened.Reached client.pow last.headers inPlay ∧
      last.headers.headers = branch ∧ last.file = some (branch.flatMap codec.serialize) := by
  induction rounds generalizing count state round with
  | zero => omega
  | succ rounds ih =>
      have hlength : state.headers.headers.length = count := by
        rw [hheaders, List.length_take]
        exact Nat.min_eq_left hcount
      have hshared : Fork.shared state.headers.headers branch = count := by
        rw [hheaders, Fork.shared_take_self hcount]
      have hpositive := shared_pos hreached hhonest
      have hstep := syncRounds_succ codec hcrate hfair hhonest hplay hsource hreached
        rounds round true
      dsimp only at hstep
      rw [hshared] at hpositive hstep
      obtain ⟨tip, rfl⟩ := Nat.exists_eq_add_of_lt hpositive
      rw [hlength, Nat.zero_add, Nat.add_sub_cancel, requestBase_tip] at hstep
      have hdropped : state.headers.headers.drop (tip + 1) = [] := by
        rw [List.drop_eq_nil_iff]
        omega
      rw [hdropped, show totalWork client.pow [] = 0 from rfl] at hstep
      have hservedLength : (served branch (tip - 1) (tip + 1)).length =
          min (tip - 1 + 1 + maxHeadersPerMessage) branch.length - (tip + 1) := by
        rw [served, List.length_drop, List.length_take]
      have hmany : maxHeadersPerMessage = 2000 := rfl
      replace hstep := hstep (by omega)
      by_cases hend : branch.length = tip + 1
      · -- the peer has no more
        have hnone : served branch (tip - 1) (tip + 1) = [] :=
          List.eq_nil_of_length_eq_zero (by omega)
        rw [hnone, show totalWork client.pow [] = 0 from rfl, if_neg (Nat.lt_irrefl 0)] at hstep
        obtain ⟨last, hsame, hkept, hstep⟩ := hstep
        have hwhole : state.headers.headers = branch := by
          rw [hheaders, List.take_of_length_le (by omega)]
        refine ⟨last, hstep, by rw [hsame]; exact hreached, by rw [hsame, hwhole], ?_⟩
        rw [hkept, hfile, hwhole]
      · have hsome : served branch (tip - 1) (tip + 1) ≠ [] := by
          rw [← List.length_pos_iff]
          omega
        rw [if_pos (totalWork_pos hcrate hsome)] at hstep
        obtain ⟨next, hnext, hgrown, hwritten, hstep⟩ := hstep
        rw [hstep]
        split
        · next hshort =>
            have hwhole : next.headers.headers = branch := by
              rw [hgrown, List.take_of_length_le (by omega)]
            refine ⟨next, rfl, hnext, hwhole, ?_⟩
            rw [hwritten, hwhole]
        · next hlong => exact ih hnext hgrown (by omega) hwritten (by omega) (round + 1)

/-- **The call** ends with the chain of the peer or with the chain as it was. -/
theorem syncRounds_honest (hbranch : branch.length ≤ headerCacheMax) {rounds : ℕ}
    {state : SyncState Addr} (hreached : opened.Reached client.pow state.headers inPlay)
    (hrounds : branch.length < rounds) :
    let shared := Fork.shared state.headers.headers branch
    let base := requestBase (state.headers.headers.length - 1) shared
    state.headers.headers.length + (served branch base shared).length ≤ headerCacheMax →
    if totalWork client.pow (state.headers.headers.drop shared) <
        totalWork client.pow (served branch base shared) then
      ∃ last : SyncState Addr, syncRounds client codec source rounds 0 false state =
          some (.ok true, last) ∧ opened.Reached client.pow last.headers inPlay ∧
        last.headers.headers = branch ∧ last.file = some (branch.flatMap codec.serialize)
    else
      ∃ last : SyncState Addr, syncRounds client codec source rounds 0 false state =
          some (.ok false, last) ∧ last.headers = state.headers ∧ last.file = state.file := by
  intro shared base hcapacity
  obtain ⟨rounds, rfl⟩ := Nat.exists_eq_add_of_lt (Nat.zero_lt_of_lt hrounds)
  rw [Nat.zero_add] at hrounds ⊢
  have hfirst := syncRounds_succ codec hcrate hfair hhonest hplay hsource hreached rounds 0 false
    hcapacity
  split
  · next hmore =>
      rw [if_pos hmore] at hfirst
      obtain ⟨next, hnext, hheaders, hfile, hstep⟩ := hfirst
      by_cases hshort : branch.length < base + 1 + maxHeadersPerMessage
      · rw [if_pos hshort] at hstep
        have hwhole : next.headers.headers = branch := by
          rw [hheaders, List.take_of_length_le (Nat.le_of_lt hshort)]
        rw [hwhole] at hfile
        exact ⟨next, hstep, hnext, hwhole, hfile⟩
      · rw [if_neg hshort] at hstep
        have hlong : base + 1 + maxHeadersPerMessage ≤ branch.length := Nat.le_of_not_lt hshort
        have hleft : branch.length - (base + 1 + maxHeadersPerMessage) < rounds := by omega
        obtain ⟨last, hrest, hlast⟩ := syncRounds_rest codec hcrate hfair hhonest hplay hsource
          hbranch hnext hheaders hlong hfile hleft 1
        exact ⟨last, hstep.trans hrest, hlast⟩
  · next hless =>
      rw [if_neg hless] at hfirst
      obtain ⟨last, hsame, hkept, hstep⟩ := hfirst
      exact ⟨last, hstep, hsame, hkept⟩

end

/-! ## The call -/

theorem totalWork_of_equal {crate : PowCrate} {headers : List Header} {work : ℕ}
    (h : ∀ header ∈ headers, crate.work header = work) :
    totalWork crate headers = headers.length * work := by
  induction headers with
  | nil => rw [List.length_nil, Nat.zero_mul]; rfl
  | cons header headers ih =>
      have hrest := ih fun other hother => h other (List.mem_cons_of_mem _ hother)
      rw [totalWork] at hrest ⊢
      rw [List.map_cons, List.sum_cons, hrest, h header List.mem_cons_self, List.length_cons,
        Nat.succ_mul, Nat.add_comm]

/-- `sync_from`, with so many rounds. -/
def syncFromPeer {Addr : Type} (client : Client Addr) (codec : HeaderCodec) (source : HeaderSource)
    (rounds : ℕ) (state : SyncState Addr) : Option (Except SyncFault Bool × SyncState Addr) :=
  syncRounds client codec source rounds 0 false state

section
variable {Addr : Type} {client : Client Addr} {codec : HeaderCodec} {source : HeaderSource}
  {genesis : Chain → Bytes32} {opened : HeaderChain} {below branch : List Header}

/-- What a run of extensions has reached, with the headers of a peer in play as well. -/
theorem reached_run (hcrate : client.pow.Lawful) (hopened : opened.Opened client.pow genesis)
    (calls : List (List Header × ℕ)) (hfair : Plausible client.pow opened.chain
      (opened.headers ++ offered calls ++ (below ++ branch))) :
    opened.Reached client.pow (opened.run client.pow calls)
      (opened.headers ++ offered calls ++ (below ++ branch)) := by
  refine (hopened.reached fun header hheader => ?_).run hcrate hfair fun header hheader => ?_
  · exact List.mem_append_left _ (List.mem_append_left _ hheader)
  · exact List.mem_append_left _ (List.mem_append_right _ hheader)

/-- **Header sync adopts a heavier first answer**: with an honest peer `sync_from` ends without an
error, with the chain of the peer if the first answer has more work above the fork than all that is
held there, and with the chain as it was if not. -/
theorem header_sync_adopts_heavier_answer (hcrate : client.pow.Lawful)
    (hopened : opened.Opened client.pow genesis) (calls : List (List Header × ℕ))
    (hfair : Plausible client.pow opened.chain
      (opened.headers ++ offered calls ++ (below ++ branch)))
    (hhonest : HonestChain client.pow opened below branch)
    (hsource : HonestSource client.pow source below branch)
    (state : SyncState Addr) (hstate : state.headers = opened.run client.pow calls) :
    let ours := state.headers.headers
    let shared := Fork.shared ours branch
    let base := requestBase (ours.length - 1) shared
    ours.length + (served branch base shared).length ≤ headerCacheMax →
    branch.length ≤ headerCacheMax →
    ∀ rounds, branch.length < rounds →
      ∃ advanced last,
        syncFromPeer client codec source rounds state = some (.ok advanced, last) ∧
        if totalWork client.pow (ours.drop shared) <
            totalWork client.pow (served branch base shared) then
          advanced = true ∧ last.headers.headers = branch ∧ opened.SameAnchor last.headers ∧
            OffsetIndex.Exact client.pow.blockHash last.headers.index branch ∧
            last.file = some (branch.flatMap codec.serialize)
        else advanced = false ∧ last.headers = state.headers ∧ last.file = state.file := by
  intro ours shared base hcapacity hbranch rounds hrounds
  have hreached := reached_run hcrate hopened calls hfair
  rw [← hstate] at hreached
  have hcall := syncRounds_honest codec hcrate hfair hhonest
    (fun header hheader => List.mem_append_right _ hheader) hsource hbranch hreached hrounds
    hcapacity
  by_cases hmore : totalWork client.pow (ours.drop shared) <
      totalWork client.pow (served branch base shared)
  · rw [if_pos hmore] at hcall
    obtain ⟨last, hended, hlast, hwhole, hfile⟩ := hcall
    have hindex := hlast.sound.index
    rw [hwhole] at hindex
    refine ⟨true, last, hended, ?_⟩
    rw [if_pos hmore]
    exact ⟨rfl, hwhole, hlast.sameAnchor, hindex, hfile⟩
  · rw [if_neg hmore] at hcall
    obtain ⟨last, hended, hsame, hfile⟩ := hcall
    refine ⟨false, last, hended, ?_⟩
    rw [if_neg hmore]
    exact ⟨rfl, hsame, hfile⟩

end


/-! ## A fork that is too deep -/

namespace DeepFork

/-- A number as a hash. -/
def number (value : ℕ) : Bytes32 :=
  ⟨(Layout.toLe 32 value).toArray, Layout.toLe_length 32 value⟩

/-- Each header is known by a number. After the anchor and its successor there are two branches,
one of even and one of odd numbers. -/
def parent (id : ℕ) : ℕ :=
  if id ≤ 1 then 0 else if id ≤ 5 then 1 else id - 2

/-- The header with a number. -/
def headerOf (id : ℕ) : Header where
  version := 1
  prevBlockhash := if id = 0 then number 0 else number (parent id + 1)
  merkleRoot := zeroHash
  time := UInt32.ofNat (1000 + id)
  bits := 0x207fffff
  nonce := UInt32.ofNat id

/-- A crate under which every header has its work done. -/
def crate : PowCrate where
  blockHash header := number (header.nonce.toNat + 1)
  scrypt := PowCrate.standard.scrypt
  fromCompact := PowCrate.standard.fromCompact
  toCompactLossy := PowCrate.standard.toCompactLossy
  isMetBy _ _ := true
  work := PowCrate.standard.work
  addWork := PowCrate.standard.addWork

def client : Client Unit where
  chain := .bitcoinRegtest
  pinned := []
  pow := crate
  consensus := .standard
  blocks := Standard.blockCrates
  addressText _ := ""
  hashText _ := ""
  errorText _ := ""

/-- The numbers of a branch. -/
def ids (side count : ℕ) : List ℕ :=
  0 :: 1 :: (List.range count).map fun place => 2 * place + 4 + side

/-- The anchor, its successor and a branch. -/
def headersOf (side count : ℕ) : List Header :=
  (ids side count).map headerOf

/-- The chain of the anchor alone. -/
def opened : HeaderChain :=
  .ofAnchor crate .bitcoinRegtest 0 (headerOf 0) (some (number 2)) none

/-- The peer of a branch. -/
def source (branch : List Header) : HeaderSource where
  requestHeaders _ hashes := .ok (answer crate branch hashes)
  now _ := .ok 10000
  machine _ := .working

/-- The state before the call. -/
def start (headers : HeaderChain) : SyncState Unit where
  headers := headers
  file := none
  peer := .connect () 1 0 ⟨[], []⟩
  blocks := .empty

theorem number_inj {a b : ℕ} (ha : a < 5002) (hb : b < 5002) (h : number a = number b) : a = b := by
  have hbytes := congrArg Vector.toList h
  have hlist : Layout.toLe 32 a = Layout.toLe 32 b := hbytes
  rw [← Layout.fromLe_toLe (show a < 256 ^ 32 by omega), hlist,
    Layout.fromLe_toLe (show b < 256 ^ 32 by omega)]

theorem nonce_toNat {id : ℕ} (h : id < 5000) : (headerOf id).nonce.toNat = id := by
  rw [headerOf, UInt32.toNat_ofNat']
  exact Nat.mod_eq_of_lt (by omega)

theorem blockHash_headerOf {id : ℕ} (h : id < 5000) :
    crate.blockHash (headerOf id) = number (id + 1) := by
  show number ((headerOf id).nonce.toNat + 1) = _
  rw [nonce_toNat h]

theorem time_toNat {id : ℕ} (h : id < 5000) : (headerOf id).time.toNat = 1000 + id := by
  rw [headerOf, UInt32.toNat_ofNat']
  exact Nat.mod_eq_of_lt (by omega)

theorem crate_lawful : crate.Lawful where
  work_pos := PowCrate.standard_lawful.work_pos
  addWork := PowCrate.standard_lawful.addWork

theorem work_headerOf (id : ℕ) : crate.work (headerOf id) = 2 := by
  have hwork : crate.work (headerOf id) = Standard.work (headerOf id) := rfl
  have hbits : (headerOf id).bits = 0x207fffff := rfl
  rw [hwork, Standard.work, hbits]
  decide +kernel

theorem pow_headerOf (id : ℕ) : checkHeaderPow crate (headerOf id) .bitcoinRegtest = .ok () := by
  have htarget : ¬(crate.fromCompact (headerOf id).bits = 0 ∨
      powLimit crate .bitcoinRegtest < crate.fromCompact (headerOf id).bits) := by
    have hbits : (headerOf id).bits = 0x207fffff := rfl
    rw [hbits]
    decide +kernel
  rw [checkHeaderPow, if_neg htarget]
  rfl

/-- Headers of these numbers are as hashes and proof of work make them. -/
theorem fair {inPlay : List Header} (h : ∀ header ∈ inPlay, ∃ id < 5000, header = headerOf id) :
    Plausible crate .bitcoinRegtest inPlay where
  injective header hheader other hother hhash := by
    obtain ⟨id, hid, rfl⟩ := h header hheader
    obtain ⟨id', hid', rfl⟩ := h other hother
    rw [blockHash_headerOf hid, blockHash_headerOf hid'] at hhash
    have hsame := number_inj (by omega) (by omega) hhash
    rw [Nat.succ.inj hsame]
  ranked := by
    refine ⟨fun header => header.nonce.toNat, fun header hheader next hnext hlink => ?_⟩
    obtain ⟨id, hid, rfl⟩ := h header hheader
    obtain ⟨id', hid', rfl⟩ := h next hnext
    rw [blockHash_headerOf hid] at hlink
    show (headerOf id).nonce.toNat < (headerOf id').nonce.toNat
    rw [nonce_toNat hid, nonce_toNat hid']
    have hparent : parent id' < 5000 ∧ (id' ≠ 0 → parent id' < id') := by
      rw [parent]
      split_ifs <;> omega
    by_cases hzero : id' = 0
    · have hprev : number 0 = number (id + 1) := by
        rw [← hlink, headerOf, if_pos hzero]
      exact absurd (number_inj (by omega) (by omega) hprev) (by omega)
    · have hprev : number (parent id' + 1) = number (id + 1) := by
        rw [← hlink, headerOf, if_neg hzero]
      have hsame := number_inj (by omega) (by omega) hprev
      omega
  work_lt header hheader _ := by
    obtain ⟨id, _, rfl⟩ := h header hheader
    rw [work_headerOf]
    decide

theorem ids_getElem? {side count place id : ℕ} :
    (ids side count)[place]? = some id ↔ place < count + 2 ∧
      id = if place ≤ 1 then place else 2 * (place - 2) + 4 + side := by
  rcases place with _ | _ | place
  · simp [ids, eq_comm]
  · simp [ids, eq_comm]
  · show ((List.range count).map fun place => 2 * place + 4 + side)[place]? = some id ↔ _
    have hplace : place + 1 + 1 - 2 = place := by omega
    rw [List.getElem?_map, if_neg (by omega), hplace]
    by_cases hlt : place < count
    · rw [List.getElem?_range hlt, Option.map_some, Option.some.injEq]
      omega
    · rw [List.getElem?_eq_none (by rw [List.length_range]; omega), Option.map_none]
      constructor
      · nofun
      · omega

theorem headersOf_length (side count : ℕ) : (headersOf side count).length = count + 2 := by
  rw [headersOf, List.length_map, ids, List.length_cons, List.length_cons, List.length_map,
    List.length_range]

theorem headersOf_getElem? {side count place : ℕ} {header : Header} :
    (headersOf side count)[place]? = some header ↔
      ∃ id, (ids side count)[place]? = some id ∧ headerOf id = header := by
  rw [headersOf, List.getElem?_map, Option.map_eq_some_iff]

theorem anchor_mem (side count : ℕ) : headerOf 0 ∈ headersOf side count :=
  List.mem_cons_self

theorem take_anchor (side count : ℕ) : [headerOf 0] = (headersOf side count).take 1 := rfl

theorem exists_id {side count : ℕ} (hside : side ≤ 1) (hcount : count ≤ 2001) {header : Header}
    (h : header ∈ headersOf side count) : ∃ id < 5000, header = headerOf id := by
  obtain ⟨place, hplace⟩ := List.mem_iff_getElem?.mp h
  obtain ⟨id, hid, rfl⟩ := headersOf_getElem?.mp hplace
  obtain ⟨hlt, heq⟩ := ids_getElem?.mp hid
  refine ⟨id, ?_, rfl⟩
  split at heq <;> omega

theorem medianTime_lt {window : List Header} {time : ℕ} (hpositive : 0 < time)
    (h : ∀ header ∈ window, header.time.toNat < time) : medianTime window < time := by
  unfold medianTime
  extract_lets start times
  rw [List.getD_eq_getElem?_getD]
  cases hfound : times[times.length / 2]? with
  | none => exact hpositive
  | some median =>
      have hmem := List.mem_of_getElem? hfound
      rw [List.mem_insertionSort] at hmem
      obtain ⟨header, hheader, rfl⟩ := List.mem_map.mp hmem
      exact h header (List.mem_of_mem_drop hheader)

/-- Both branches follow the rules. -/
theorem headersOf_valid {side count : ℕ} (hside : side ≤ 1) (hcount : count ≤ 2001) :
    opened.AllValid crate (headersOf side count) := by
  intro offset header hheader
  obtain ⟨id, hid, rfl⟩ := headersOf_getElem?.mp hheader
  obtain ⟨hlt, heq⟩ := ids_getElem?.mp hid
  have hid' : id < 5000 := by split at heq <;> omega
  obtain ⟨before, hbefore⟩ : ∃ before, before = if offset ≤ 1 then offset
      else 2 * (offset - 2) + 4 + side := ⟨_, rfl⟩
  have hplace : (headersOf side count)[offset]? = some (headerOf before) :=
    headersOf_getElem?.mpr ⟨before, ids_getElem?.mpr ⟨by omega, hbefore⟩, rfl⟩
  have hparent : parent id = before := by
    rw [parent]
    split_ifs at heq hbefore ⊢ <;> omega
  have hlast : ((headersOf side count).take (offset + 1)).getLast? = some (headerOf before) := by
    rw [List.getLast?_take, if_neg (Nat.succ_ne_zero offset), Nat.add_sub_cancel, hplace]
    rfl
  have hlength : ((headersOf side count).take (offset + 1)).length = offset + 1 := by
    rw [List.length_take, headersOf_length]
    omega
  refine ⟨headerOf before, 0, (headersOf side count).take (offset + 1), hlast, ?_, rfl, ?_, ?_⟩
  · rw [blockHash_headerOf (by split at hbefore <;> omega), ← hparent]
    show (if id = 0 then number 0 else number (parent id + 1)) = _
    rw [if_neg (by split at heq <;> omega)]
  · split
    · next hfirst =>
        have hone : id = 1 := by
          split at heq <;> omega
        rw [hone, blockHash_headerOf (by omega)]
        rfl
    · rw [expectedBits, hlast]
      dsimp only
      rw [hlength, if_neg (by rw [u64Max]; omega)]
      rfl
  · apply medianTime_lt
    · rw [time_toNat hid']
      omega
    · intro other hother
      obtain ⟨place, hplaced⟩ := List.mem_iff_getElem?.mp hother
      rw [List.getElem?_take] at hplaced
      split at hplaced
      · next hin =>
          obtain ⟨id', hid'', rfl⟩ := headersOf_getElem?.mp hplaced
          obtain ⟨_, heq'⟩ := ids_getElem?.mp hid''
          have hless : id' < id := by
            split at heq <;> split at heq' <;> omega
          rw [time_toNat hid', time_toNat (by omega)]
          omega
      · cases hplaced

theorem honestChain {side count : ℕ} (hside : side ≤ 1) (hcount : count ≤ 2001) :
    HonestChain crate opened [] (headersOf side count) where
  anchored := rfl
  linked := (headersOf_valid hside hcount).isChain
  valid := headersOf_valid hside hcount
  pow header hheader := by
    obtain ⟨id, _, rfl⟩ := exists_id hside hcount hheader
    exact pow_headerOf id

theorem honestSource {side count : ℕ} (hside : side ≤ 1) (hcount : count ≤ 2001) :
    HonestSource crate (source (headersOf side count)) [] (headersOf side count) where
  answers _ _ := rfl
  horizon _ := by
    refine ⟨10000, rfl, by decide, fun header hheader => ?_⟩
    obtain ⟨id, hid, rfl⟩ := exists_id hside hcount hheader
    rw [time_toNat hid, maxFutureSecs]
    omega
  reserves _ := rfl
  writes _ := rfl

theorem opened_anchored : opened.Opened crate fun _ => zeroHash := by
  have h : HeaderChain.anchored crate .bitcoinRegtest 0 (headerOf 0) (number 2) = .ok opened := by
    rw [HeaderChain.anchored, pow_headerOf]
    rfl
  exact .anchored h

-- the branches are long lists, which only the lemmas above look into
attribute [irreducible] headersOf

/-- A start of the even branch takes what comes next on it. -/
theorem extend_own {chain : HeaderChain} {count : ℕ}
    (hreached : opened.Reached crate chain (headersOf 0 2000))
    (hheaders : chain.headers = (headersOf 0 2000).take (count + 1)) (hcount : count < 2001) :
    let batch := ((headersOf 0 2000).drop (count + 1)).take maxHeadersPerMessage
    opened.Reached crate (chain.extend crate batch 10000).1 (headersOf 0 2000) ∧
      (chain.extend crate batch 10000).1.headers =
        (headersOf 0 2000).take (count + 1 + maxHeadersPerMessage) := by
  intro batch
  have hfair : Plausible crate .bitcoinRegtest (headersOf 0 2000) :=
    fair fun header hheader => exists_id (by omega) (by omega) hheader
  have hlength := headersOf_length 0 2000
  have hshared : Fork.shared chain.headers (headersOf 0 2000) = count + 1 := by
    rw [hheaders, Fork.shared_take_self (by omega)]
  have hours : chain.headers.length = count + 1 := by
    rw [hheaders, List.length_take]
    omega
  have hserved : (served (headersOf 0 2000) count (count + 1)).length ≤ 2001 := by
    rw [served, List.length_drop, List.length_take]
    omega
  have hsource := @honestSource 0 2000 (by decide) (by decide)
  obtain ⟨now, hnow, hclock, htimes⟩ := hsource.horizon 0
  cases hnow
  have hextend := @extend_answer crate opened chain [] (headersOf 0 2000) _ crate_lawful hreached
    hfair (honestChain (by decide) (by decide)) (fun header hheader => hheader) count 10000
    (by omega) (by rw [hshared, headerCacheMax]; omega) hclock htimes
  have hpositive : totalWork crate (chain.headers.drop (count + 1)) <
      totalWork crate (served (headersOf 0 2000) count (count + 1)) := by
    rw [List.drop_of_length_le (Nat.le_of_eq hours)]
    apply totalWork_pos crate_lawful
    rw [← List.length_pos_iff, served, List.length_drop, List.length_take,
      show maxHeadersPerMessage = 2000 from rfl]
    omega
  dsimp only at hextend
  rw [hshared, if_pos hpositive] at hextend
  obtain ⟨next, extension, hnext, _, hgrown⟩ := hextend
  have hkept := @Runtime.HeaderChain.Reached.extend crate chain crate_lawful opened
    (headersOf 0 2000) batch 10000 hreached hfair fun header hheader =>
      List.mem_of_mem_drop (List.mem_of_mem_take hheader)
  refine ⟨hkept, ?_⟩
  rw [hnext]
  exact hgrown

/-- The even branch, as it is read in two batches. -/
def calls : List (List Header × ℕ) :=
  [0, 2000].map fun count =>
    (((headersOf 0 2000).drop (count + 1)).take maxHeadersPerMessage, 10000)

theorem mem_of_mem_offered {header : Header} (h : header ∈ offered calls) :
    header ∈ headersOf 0 2000 := by
  obtain ⟨call, hcall, hheader⟩ := List.mem_flatMap.mp h
  obtain ⟨count, _, rfl⟩ := List.mem_map.mp hcall
  exact List.mem_of_mem_drop (List.mem_of_mem_take hheader)

/-- The headers of a fresh client and of a short odd branch. -/
theorem fair_fresh : Plausible crate .bitcoinRegtest
    (opened.headers ++ offered [] ++ ([] ++ headersOf 1 1)) := by
  refine fair fun header hheader => ?_
  rcases List.mem_append.mp hheader with hheld | htheirs
  · exact ⟨0, by decide, List.mem_singleton.mp hheld⟩
  · exact exists_id (by decide) (by decide) htheirs

theorem run_calls : opened.Reached crate (opened.run crate calls) (headersOf 0 2000) ∧
    (opened.run crate calls).headers = headersOf 0 2000 := by
  have hanchor : ∀ header ∈ opened.headers, header ∈ headersOf 0 2000 := by
    intro header hheader
    rw [List.mem_singleton.mp hheader]
    exact anchor_mem 0 2000
  have hstart : opened.headers = (headersOf 0 2000).take (0 + 1) := take_anchor 0 2000
  have hfirst := extend_own (opened_anchored.reached hanchor) hstart (Nat.zero_lt_succ 2000)
  have hheaders := hfirst.2
  rw [show 0 + 1 + maxHeadersPerMessage = 2000 + 1 by decide] at hheaders
  have hsecond := extend_own hfirst.1 hheaders (Nat.lt_succ_self 2000)
  rw [HeaderChain.run, calls, List.map_cons, List.map_cons, List.map_nil, List.foldl_cons,
    List.foldl_cons, List.foldl_nil]
  dsimp only at hsecond ⊢
  refine ⟨hsecond.1, hsecond.2.trans (List.take_of_length_le ?_)⟩
  rw [headersOf_length, show maxHeadersPerMessage = 2000 from rfl]
  omega

/-- The two branches part after the successor of the anchor. -/
theorem shared_branches {even odd : ℕ} (heven : 0 < even) (hodd : 0 < odd) :
    Fork.shared (headersOf 0 even) (headersOf 1 odd) = 2 := by
  have hplace : ∀ side count place, 0 < count → place ≤ 2 → (headersOf side count)[place]? =
      some (headerOf (if place ≤ 1 then place else 2 * (place - 2) + 4 + side)) :=
    fun side count place hcount hle =>
      headersOf_getElem?.mpr ⟨_, ids_getElem?.mpr ⟨by omega, rfl⟩, rfl⟩
  have hone := Fork.lt_shared (Nat.zero_le _) (hplace 0 even 0 heven (by omega))
    (hplace 1 odd 0 hodd (by omega))
  have htwo := Fork.lt_shared hone (hplace 0 even 1 heven (by omega))
    (hplace 1 odd 1 hodd (by omega))
  refine Nat.le_antisymm (Nat.le_of_not_lt fun hmore => ?_) htwo
  have hsame := Fork.getElem?_of_lt_shared hmore
  rw [hplace 0 even 2 heven (by omega), hplace 1 odd 2 hodd (by omega),
    Option.some.injEq] at hsame
  have hnonce := congrArg (fun header => header.nonce.toNat) hsame
  exact absurd ((nonce_toNat (by decide)).symm.trans (hnonce.trans (nonce_toNat (by decide))))
    (by decide)

/-- Two thousand headers are held above the fork, the peer has one more, and its first answer does
not reach that one. -/
theorem refused {ours : HeaderChain} {theirs : List Header} (hrun : ours = opened.run crate calls)
    (htheirs : theirs = headersOf 1 2001) :
    HonestChain crate opened [] theirs ∧ HonestSource crate (source theirs) [] theirs ∧
    Plausible crate .bitcoinRegtest (opened.headers ++ offered calls ++ ([] ++ theirs)) ∧
    totalWork crate (ours.headers.drop (Fork.shared ours.headers theirs)) <
      totalWork crate (theirs.drop (Fork.shared ours.headers theirs)) ∧
    ours.headers.length + theirs.length ≤ headerCacheMax ∧
    ∀ rounds, theirs.length < rounds → ∃ last,
      syncFromPeer client ⟨Standard.serializeHeader, fun _ => none⟩ (source theirs) rounds
        (start ours) = some (.ok false, last) ∧ last.headers.headers ≠ theirs := by
  have hours : ours.headers = headersOf 0 2000 := by
    rw [hrun]
    exact run_calls.2
  subst htheirs
  have hshared : Fork.shared ours.headers (headersOf 1 2001) = 2 := by
    rw [hours]
    exact shared_branches (by decide) (by decide)
  have hlength : ours.headers.length = 2002 := by rw [hours, headersOf_length]
  have hlength' : (headersOf 1 2001).length = 2003 := headersOf_length 1 2001
  have hfair : Plausible crate .bitcoinRegtest
      (opened.headers ++ offered calls ++ ([] ++ headersOf 1 2001)) := by
    refine fair fun header hheader => ?_
    rcases List.mem_append.mp hheader with hheld | hbranch
    · rcases List.mem_append.mp hheld with hanchor | hoffered
      · exact ⟨0, by decide, List.mem_singleton.mp hanchor⟩
      · exact exists_id (by decide) (by decide) (mem_of_mem_offered hoffered)
    · rw [List.nil_append] at hbranch
      exact exists_id (by decide) (by decide) hbranch
  have hhonest := @honestChain 1 2001 (by decide) (by decide)
  have hsource := @honestSource 1 2001 (by decide) (by decide)
  have hwork : ∀ side count, side ≤ 1 → count ≤ 2001 → ∀ header ∈ headersOf side count,
      crate.work header = 2 := by
    intro side count hside hcount header hheader
    obtain ⟨id, _, rfl⟩ := exists_id hside hcount hheader
    exact work_headerOf id
  have hincumbent : totalWork crate (ours.headers.drop 2) = 4000 := by
    rw [hours, totalWork_of_equal fun header hheader => hwork 0 2000 (by decide) (by decide) header
      (List.mem_of_mem_drop hheader), List.length_drop, headersOf_length]
  have hbase := (@requestBase_spec (ours.headers.length - 1) 2 (by decide)).2
  have hserved : ¬totalWork crate (ours.headers.drop 2) <
      totalWork crate (served (headersOf 1 2001) (requestBase (ours.headers.length - 1) 2) 2) := by
    rw [hincumbent, totalWork_of_equal fun header hheader => hwork 1 2001 (by decide) (by decide)
      header (mem_of_mem_served hheader), served, List.length_drop, List.length_take, hlength',
      show maxHeadersPerMessage = 2000 from rfl]
    omega
  have hcapacity :
      (served (headersOf 1 2001) (requestBase (ours.headers.length - 1) 2) 2).length ≤ 2003 := by
    rw [served, List.length_drop, List.length_take]
    omega
  refine ⟨hhonest, hsource, hfair, ?_, by rw [hlength, hlength']; decide, fun rounds hrounds => ?_⟩
  · rw [hshared, hincumbent, totalWork_of_equal fun header hheader => hwork 1 2001 (by decide)
      (by decide) header (List.mem_of_mem_drop hheader), List.length_drop, hlength']
    decide
  · have hreached : opened.Reached crate ours
        (opened.headers ++ offered calls ++ ([] ++ headersOf 1 2001)) := by
      rw [hrun]
      exact @reached_run Unit client _ opened [] (headersOf 1 2001) crate_lawful opened_anchored
        calls hfair
    have hcall := @syncRounds_honest Unit client ⟨Standard.serializeHeader, fun _ => none⟩
      (source (headersOf 1 2001)) opened [] (headersOf 1 2001) _ crate_lawful hfair hhonest
      (fun header hheader => List.mem_append_right _ hheader) hsource
      (by rw [hlength', headerCacheMax]; omega) rounds (start ours) hreached hrounds
    have hsame : (start ours).headers = ours := rfl
    rw [hsame] at hcall
    dsimp only at hcall
    rw [hshared] at hcall
    replace hcall := hcall (by rw [headerCacheMax]; omega)
    rw [if_neg (show ¬totalWork client.pow (ours.headers.drop 2) < totalWork client.pow
      (served (headersOf 1 2001) (requestBase (ours.headers.length - 1) 2) 2) from hserved)]
      at hcall
    obtain ⟨last, hended, hkept, _⟩ := hcall
    refine ⟨last, hended, fun hwhole => ?_⟩
    rw [← hwhole, hkept, hlength] at hlength'
    exact absurd hlength' (by decide)

end DeepFork

open DeepFork in
/-- **A heavier chain is refused** where it forks off too deep: two thousand headers are held above
the fork, the peer has one more, and its first answer does not reach that one. -/
theorem deep_fork_is_refused :
    let ours := opened.run crate calls
    let theirs := headersOf 1 2001
    HonestChain crate opened [] theirs ∧ HonestSource crate (source theirs) [] theirs ∧
    Plausible crate .bitcoinRegtest (opened.headers ++ offered calls ++ ([] ++ theirs)) ∧
    totalWork crate (ours.headers.drop (Fork.shared ours.headers theirs)) <
      totalWork crate (theirs.drop (Fork.shared ours.headers theirs)) ∧
    ours.headers.length + theirs.length ≤ headerCacheMax ∧
    ∀ rounds, theirs.length < rounds → ∃ last,
      syncFromPeer client ⟨Standard.serializeHeader, fun _ => none⟩ (source theirs) rounds
        (start ours) = some (.ok false, last) ∧ last.headers.headers ≠ theirs :=
  refused rfl rfl

open DeepFork in
/-- A fresh client adopts a chain of two headers above its anchor. -/
theorem header_sync_adopts_heavier_answer_fresh :
    ∃ last, syncFromPeer client ⟨Standard.serializeHeader, fun _ => none⟩
        (source (headersOf 1 1)) 4 (start opened) = some (.ok true, last) ∧
      last.headers.headers = headersOf 1 1 := by
  have hcall := @header_sync_adopts_heavier_answer Unit client
    ⟨Standard.serializeHeader, fun _ => none⟩ (source (headersOf 1 1)) (fun _ => zeroHash) opened []
    (headersOf 1 1) crate_lawful opened_anchored [] fair_fresh (honestChain (by decide) (by decide))
    (honestSource (by decide) (by decide)) (start opened) rfl
  have hlength := headersOf_length 1 1
  have hours : (start opened).headers.headers = [headerOf 0] := rfl
  have hshared : Fork.shared [headerOf 0] (headersOf 1 1) = 1 := by
    rw [take_anchor 1 1, Fork.shared_take_self (by omega)]
  have hbase : requestBase ([headerOf 0].length - 1) 1 = 0 := rfl
  have hserved : (served (headersOf 1 1) 0 1).length = 2 := by
    rw [served, List.length_drop, List.length_take, hlength]
    rfl
  have hmore : totalWork client.pow ([headerOf 0].drop 1) <
      totalWork client.pow (served (headersOf 1 1) 0 1) := by
    apply totalWork_pos crate_lawful
    rw [← List.length_pos_iff, hserved]
    exact Nat.zero_lt_two
  rw [hours] at hcall
  dsimp only at hcall
  rw [hshared, hbase] at hcall
  obtain ⟨advanced, last, hended, hadopted⟩ := hcall (by rw [hserved]; decide)
    (by rw [hlength]; decide) 4 (by rw [hlength]; decide)
  rw [if_pos hmore] at hadopted
  obtain ⟨rfl, hwhole, _⟩ := hadopted
  exact ⟨last, hended, hwhole⟩

end Urma.P2p
