import Urma.Chain.BlockCodec
import Urma.Chain.DecodeBlock
import Urma.Chain.InclusionComplete

/-!
# Splitting a block into its transactions

`decode_block` keeps the bytes of every transaction beside the decoded ones. For Bitcoin a second
pass measures what each transaction consumes; for Litecoin the lengths are those of the
re-serialized transactions. Either way the pieces are consecutive, together with the header, the
count and the extension they are the whole input, and each is decoded to the transaction at its
place.
-/

namespace Urma.Chain

open Lib Lib.Layout Lib.Reader

section

/-! ## What the crates do -/

/-- `Decodable` of a type, as a reader. -/
def Codec.read {α : Type} (codec : Codec α) : Read Unit α := fun bytes =>
  match codec.decode bytes with
  | some (a, rest) => .ok (a, rest)
  | none => .error ()

theorem Codec.read_eq_ok {α : Type} {codec : Codec α} {bytes rest : Bytes} {a : α} :
    codec.read bytes = .ok (a, rest) ↔ codec.decode bytes = some (a, rest) := by
  rw [Codec.read]
  cases codec.decode bytes with
  | none => exact ⟨nofun, nofun⟩
  | some pair => simp

/-- A decoder consumes the front of its input. What was decoded is read back from the bytes that it
is serialized to. -/
structure Codec.Lawful {α : Type} (codec : Codec α) : Prop where
  consumes : Local codec.read
  reads : ∀ {bytes a rest}, codec.decode bytes = some (a, rest) →
    ∀ other, codec.decode (codec.serialize a ++ other) = some (a, other)

/-- The decoders of the `bitcoin` crate behind `deserialize` and `deserialize_partial`. -/
structure BitcoinDecoders where
  transaction : Read Unit Transaction
  count : Read Unit ℕ

variable (crates : BlockCrates) (decoders : BitcoinDecoders)

/-- The codec of a transaction of the `litecoin` crate. -/
def BlockCrates.litecoinTransaction : Codec crates.LitecoinTransaction where
  decode := crates.litecoinDecode
  serialize := crates.litecoinSerialize

/-- What the code relies on of the `bitcoin` crate. `deserialize` reads to the last byte, and
`deserialize_partial` tells how many bytes were read. -/
structure BitcoinLawful : Prop where
  transaction : Local decoders.transaction
  count : Local decoders.count
  deserialize : ∀ raw tx,
    decoders.transaction raw = .ok (tx, []) → crates.deserialize raw = some tx
  transactionBytes : ∀ raw consumed, crates.transactionBytes raw = some consumed →
    ∃ tx rest, decoders.transaction raw = .ok (tx, rest) ∧ consumed = raw.length - rest.length
  varIntBytes : ∀ raw consumed, crates.varIntBytes raw = some consumed →
    ∃ count rest, decoders.count raw = .ok (count, rest) ∧ consumed = raw.length - rest.length
  deserializeBlock : ∀ raw block, crates.deserializeBlock raw = some block →
    80 ≤ raw.length ∧ crates.deserializeHeader (raw.take 80) = some block.header ∧
      ∃ count rest, decoders.count (raw.drop 80) = .ok (count, rest) ∧
        readMany decoders.transaction count rest = .ok (block.txdata, [])

/-- What the code relies on of the `litecoin` crate. A vector is its length and its members. -/
structure LitecoinLawful : Prop where
  header : crates.litecoinHeader.Lawful
  transactions : crates.litecoinTransactions.Lawful
  transaction : crates.litecoinTransaction.Lawful
  varInt : crates.litecoinVarInt.Lawful
  byte : crates.litecoinByte.Lawful
  mwebBlock : crates.mwebBlock.Lawful
  serialize : ∀ txs, crates.litecoinTransactions.serialize txs =
    crates.litecoinVarInt.serialize txs.length ++ txs.flatMap crates.litecoinSerialize
  decode : ∀ raw txs rest, crates.litecoinTransactions.decode raw = some (txs, rest) →
    (∃ rest, crates.litecoinVarInt.decode raw = some (txs.length, rest)) ∧
      ∀ tx ∈ txs, ∃ raw rest, crates.litecoinDecode raw = some (tx, rest)

variable {crates decoders}

namespace Decode

/-! ## Canonical pieces -/

/-- **A canonical piece** is what its value is serialized to. -/
theorem canonicalOf_eq_ok {α : Type} {codec : Codec α} (hcodec : codec.Lawful)
    {remaining rest : Bytes} {value : α} (h : canonicalOf codec remaining = .ok (value, rest)) :
    remaining = codec.serialize value ++ rest ∧
      codec.decode (codec.serialize value) = some (value, []) := by
  rw [canonicalOf] at h
  split at h
  · cases h
  · next value' rest' hdecode =>
    split at h
    · cases h
    · next hsame =>
      cases h
      obtain ⟨used, rfl, _⟩ := hcodec.consumes _ _ _ (Codec.read_eq_ok.mpr hdecode)
      have hused := not_not.mp hsame
      rw [List.length_append, Nat.add_sub_cancel, List.take_left' rfl] at hused
      have hread := hcodec.reads hdecode []
      rw [List.append_nil] at hread
      exact ⟨by rw [hused], hread⟩

theorem shared_eq_ok {α : Type} {result : Except DecodeError α} {a : α} :
    shared result = .ok a ↔ result = .ok a := by
  cases result with
  | error cause => exact ⟨nofun, nofun⟩
  | ok b => simp [shared]

theorem bitcoinData_eq_ok {α : Type} {result : Option α} {a : α} :
    bitcoinData result = .ok a ↔ result = some a := by
  cases result with
  | none => exact ⟨nofun, nofun⟩
  | some b => simp [bitcoinData]

/-! ## Bitcoin -/

/-- **The second pass** cuts what the first one read. -/
theorem splitTransactions_eq_ok (hlawful : BitcoinLawful crates decoders) {txs : List Transaction}
    {count : ℕ} {remaining rest : Bytes} {raws : List Bytes}
    (hread : readMany decoders.transaction count remaining = .ok (txs, rest))
    (h : splitTransactions crates txs remaining = .ok raws) :
    remaining = raws.flatten ++ rest ∧
      List.Forall₂ (fun raw tx => decoders.transaction raw = .ok (tx, [])) raws txs := by
  induction count generalizing txs remaining raws with
  | zero =>
      cases hread
      cases h
      exact ⟨rfl, .nil⟩
  | succ count ih =>
      simp only [readMany, Except.bind_eq_ok, Prod.exists] at hread
      obtain ⟨tx, middle, hfirst, others, left, hothers, hok⟩ := hread
      cases hok
      simp only [splitTransactions, Except.bind_eq_ok] at h
      obtain ⟨consumed, hconsumed, more, hmore, hok⟩ := h
      cases hok
      obtain ⟨used, rfl, hused⟩ := hlawful.transaction _ _ _ hfirst
      have hlength : consumed = used.length := by
        obtain ⟨tx', rest', hsame, rfl⟩ :=
          hlawful.transactionBytes _ _ (bitcoinData_eq_ok.mp hconsumed)
        rw [hfirst] at hsame
        cases hsame
        rw [List.length_append, Nat.add_sub_cancel]
      rw [List.drop_left' hlength.symm] at hmore
      obtain ⟨hflat, hall⟩ := ih hothers hmore
      rw [List.take_left' hlength.symm]
      refine ⟨?_, .cons ?_ hall⟩
      · rw [List.flatten_cons, List.append_assoc, ← hflat]
      · have hown := hused []
        rwa [List.append_nil] at hown

/-- **A Bitcoin block** is its header, its count and its transactions. -/
theorem bitcoinDecodedBlock_eq_ok (hlawful : BitcoinLawful crates decoders) {raw : Bytes}
    {decoded : DecodedBlock} (h : bitcoinDecodedBlock crates raw = .ok decoded) :
    ∃ header count, raw = header ++ count ++ decoded.rawTransactions.flatten ∧
      header.length = 80 ∧ crates.deserializeHeader header = some decoded.block.header ∧
      decoders.count count = .ok (decoded.block.txdata.length, []) ∧
      List.Forall₂ (fun raw tx => decoders.transaction raw = .ok (tx, [])) decoded.rawTransactions
        decoded.block.txdata := by
  simp only [bitcoinDecodedBlock, Except.bind_eq_ok] at h
  obtain ⟨block, hblock, consumed, hconsumed, raws, hraws, hok⟩ := h
  cases hok
  obtain ⟨hlong, hheader, count, rest, hcount, hmany⟩ :=
    hlawful.deserializeBlock raw block (bitcoinData_eq_ok.mp hblock)
  obtain ⟨used, hdrop, hused⟩ := hlawful.count _ _ _ hcount
  have hlength : consumed = used.length := by
    obtain ⟨count', rest', hsame, rfl⟩ :=
      hlawful.varIntBytes _ _ (bitcoinData_eq_ok.mp hconsumed)
    rw [hcount] at hsame
    cases hsame
    rw [hdrop, List.length_append, Nat.add_sub_cancel]
  rw [hdrop, List.drop_left' hlength.symm] at hraws
  obtain ⟨hflat, hall⟩ := splitTransactions_eq_ok hlawful hmany hraws
  rw [List.append_nil] at hflat
  refine ⟨raw.take 80, used, ?_, List.length_take_of_le hlong, hheader, ?_, hall⟩
  · rw [List.append_assoc, ← hflat, ← hdrop, List.take_append_drop]
  · have hown := hused []
    rwa [List.append_nil, ← readMany_length hmany] at hown

/-! ## Litecoin -/

/-- What may follow the transactions: nothing, or after a HogEx the extension block. A block of the
Core encoding that ends in a HogEx has it. -/
inductive Extension (crates : BlockCrates) (encoding : Encoding) :
    List crates.LitecoinTransaction → Bytes → Prop where
  | none {txs} (h : encoding = .core → ∀ tx ∈ txs, crates.isHogEx tx = false) :
      Extension crates encoding txs []
  | absent {txs} (tx : crates.LitecoinTransaction) (h : crates.isHogEx tx = true) :
      Extension crates encoding (txs ++ [tx]) (crates.litecoinByte.serialize 0)
  | block {txs} (tx : crates.LitecoinTransaction) (h : crates.isHogEx tx = true)
      (mweb : crates.MwebBlock) : Extension crates encoding (txs ++ [tx])
        (crates.litecoinByte.serialize 1 ++ crates.mwebBlock.serialize mweb)

/-- What a HogEx at the end is followed by. -/
theorem afterHogEx_eq_ok (hlawful : LitecoinLawful crates) {encoding : Encoding} {index count : ℕ}
    {remaining left : Bytes} (h : afterHogEx crates encoding count index remaining = .ok left) :
    index + 1 = count ∧ ∃ suffix, remaining = suffix ++ left ∧
      (suffix = [] ∧ encoding ≠ .core ∨ suffix = crates.litecoinByte.serialize 0 ∨
        ∃ mweb, suffix = crates.litecoinByte.serialize 1 ++ crates.mwebBlock.serialize mweb) := by
  rw [afterHogEx] at h
  split at h
  · cases h
  · next hplace =>
    have hlast : index + 1 = count := by
      rw [not_or, not_not] at hplace
      exact hplace.2
    refine ⟨hlast, ?_⟩
    split at h
    · simp only [Except.bind_eq_ok, Prod.exists] at h
      obtain ⟨flag, rest, hflag, h⟩ := h
      obtain ⟨hrest, _⟩ := canonicalOf_eq_ok hlawful.byte hflag
      split at h
      · next hzero =>
        cases h
        exact ⟨_, hzero ▸ hrest, .inr (.inl rfl)⟩
      · split at h
        · next hone =>
          simp only [Except.bind_eq_ok, Prod.exists] at h
          obtain ⟨mweb, rest', hmweb, hok⟩ := h
          cases hok
          obtain ⟨hleft, _⟩ := canonicalOf_eq_ok hlawful.mwebBlock hmweb
          refine ⟨_, ?_, .inr (.inr ⟨mweb, rfl⟩)⟩
          rw [hrest, hleft, hone, List.append_assoc]
        · cases h
    · next hnone =>
      cases h
      exact ⟨[], rfl, .inl ⟨rfl, fun hcore => hnone (.inr hcore)⟩⟩

/-- What one round of the loop does. -/
theorem litecoinLoop_cons {encoding : Encoding} {index count : ℕ}
    {tx : crates.LitecoinTransaction} {txs : List crates.LitecoinTransaction}
    {bytes remaining left : Bytes} {txdata : List Transaction} {raws : List Bytes}
    (h : litecoinLoop crates encoding count index (tx :: txs)
      (crates.litecoinSerialize tx ++ bytes) remaining = .ok (txdata, raws, left)) :
    ∃ middle decoded others cut,
      (if crates.isHogEx tx then afterHogEx crates encoding count index remaining
        else .ok remaining) = .ok middle ∧
      transparent crates.toDecodeCrates tx = .ok decoded ∧
      litecoinLoop crates encoding count (index + 1) txs bytes middle = .ok (others, cut, left) ∧
      txdata = decoded :: others ∧ raws = crates.litecoinSerialize tx :: cut := by
  rw [litecoinLoop] at h
  simp only [List.take_left' rfl, List.drop_left' rfl] at h
  split at h
  · next hhog =>
    simp only [Except.bind_eq_ok, Prod.exists, shared_eq_ok] at h
    obtain ⟨middle, hmiddle, decoded, hdecoded, others, cut, left', hrest, hok⟩ := h
    cases hok
    exact ⟨middle, decoded, others, cut, by rw [if_pos hhog]; exact hmiddle, hdecoded, hrest, rfl,
      rfl⟩
  · next hhog =>
    simp only [Except.bind_eq_ok, Prod.exists, shared_eq_ok] at h
    obtain ⟨middle, hmiddle, decoded, hdecoded, others, cut, left', hrest, hok⟩ := h
    cases hok
    exact ⟨middle, decoded, others, cut, by rw [if_neg hhog]; exact hmiddle, hdecoded, hrest, rfl,
      rfl⟩

/-- **The loop** cuts the transactions, and then what follows them. -/
theorem litecoinLoop_eq_ok (hlawful : LitecoinLawful crates) {encoding : Encoding} {index count : ℕ}
    {txs : List crates.LitecoinTransaction} {remaining left : Bytes} {txdata : List Transaction}
    {raws : List Bytes} (hcount : index + txs.length = count)
    (h : litecoinLoop crates encoding count index txs (txs.flatMap crates.litecoinSerialize)
      remaining = .ok (txdata, raws, left)) :
    raws = txs.map crates.litecoinSerialize ∧
      List.Forall₂ (fun tx decoded => transparent crates.toDecodeCrates tx = .ok decoded) txs
        txdata ∧
      ∃ suffix, remaining = suffix ++ left ∧ Extension crates encoding txs suffix := by
  induction txs generalizing index remaining txdata raws with
  | nil =>
      cases h
      exact ⟨rfl, .nil, [], rfl, .none fun _ _ hmem => (List.not_mem_nil hmem).elim⟩
  | cons tx txs ih =>
      rw [List.flatMap_cons] at h
      obtain ⟨middle, decoded, others, cut, hmiddle, hdecoded, hrest, rfl, rfl⟩ :=
        litecoinLoop_cons h
      rw [List.length_cons] at hcount
      obtain ⟨rfl, hall, suffix, hsuffix, hextension⟩ := ih (by omega) hrest
      refine ⟨rfl, .cons hdecoded hall, ?_⟩
      split at hmiddle
      · next hhog =>
        -- a HogEx is the last transaction, so that nothing else follows it
        obtain ⟨hlast, suffix', hremaining, hor⟩ := afterHogEx_eq_ok hlawful hmiddle
        obtain rfl : txs = [] := List.length_eq_zero_iff.mp (by omega)
        cases hrest
        refine ⟨suffix', hremaining, ?_⟩
        rcases hor with ⟨rfl, hne⟩ | rfl | ⟨mweb, rfl⟩
        · exact .none fun hcore => absurd hcore hne
        · exact @Extension.absent _ _ [] tx hhog
        · exact @Extension.block _ _ [] tx hhog mweb
      · next hhog =>
        cases hmiddle
        refine ⟨suffix, hsuffix, ?_⟩
        cases hextension with
        | none hnone =>
            apply Extension.none
            intro hcore other hmem
            rcases List.mem_cons.mp hmem with rfl | hmem
            · exact Bool.eq_false_iff.mpr hhog
            · exact hnone hcore other hmem
        | absent last hlast => exact @Extension.absent _ _ (tx :: _) last hlast
        | block last hlast mweb => exact @Extension.block _ _ (tx :: _) last hlast mweb

/-- **A Litecoin block** is its header, its count, its transactions and what may follow them. -/
theorem litecoinBlock_eq_ok (hlawful : LitecoinLawful crates) {encoding : Encoding} {raw : Bytes}
    {decoded : DecodedBlock} (h : litecoinBlock crates raw encoding = .ok decoded) :
    ∃ header count suffix, raw = header ++ count ++ decoded.rawTransactions.flatten ++ suffix ∧
      (∃ value, crates.litecoinHeader.decode header = some (value, []) ∧
        crates.deserializeHeader (crates.litecoinHeader.serialize value) =
          some decoded.block.header) ∧
      crates.litecoinVarInt.decode count = some (decoded.block.txdata.length, []) ∧
      ∃ txs, Extension crates encoding txs suffix ∧
        decoded.rawTransactions = txs.map crates.litecoinSerialize ∧
        (∀ tx ∈ txs, crates.litecoinDecode (crates.litecoinSerialize tx) = some (tx, [])) ∧
        List.Forall₂ (fun tx decoded => transparent crates.toDecodeCrates tx = .ok decoded) txs
          decoded.block.txdata := by
  simp only [litecoinBlock, Except.bind_eq_ok, Prod.exists] at h
  obtain ⟨value, start, hvalue, txs, remaining, htxs, number, bytes, hnumber, txdata, raws, left,
    hloop, u, hfinished, header, hheader, hok⟩ := h
  cases hok
  obtain ⟨hraw, hread⟩ := canonicalOf_eq_ok hlawful.header hvalue
  obtain ⟨hstart, hvector⟩ := canonicalOf_eq_ok hlawful.transactions htxs
  obtain ⟨⟨rest, hcount⟩, hmembers⟩ := hlawful.decode _ _ _ hvector
  -- the consumed bytes are the count and the transactions
  rw [hstart, List.length_append, Nat.add_sub_cancel, List.take_left' rfl, hlawful.serialize]
    at hnumber
  have hbytes : number = txs.length ∧ bytes = txs.flatMap crates.litecoinSerialize := by
    rw [canonicalOf, hlawful.varInt.reads hcount] at hnumber
    split at hnumber
    · cases hnumber
    · next hsame =>
      cases hsame
      split at hnumber
      · cases hnumber
      · cases hnumber
        exact ⟨rfl, rfl⟩
  obtain ⟨rfl, rfl⟩ := hbytes
  obtain ⟨rfl, hall, suffix, hsuffix, hextension⟩ :=
    litecoinLoop_eq_ok hlawful (Nat.zero_add _) hloop
  have hleft : left = [] := by
    rw [shared_eq_ok, finished] at hfinished
    split at hfinished
    · next hempty => exact List.isEmpty_iff.mp hempty
    · cases hfinished
  rw [hleft, List.append_nil] at hsuffix
  refine ⟨crates.litecoinHeader.serialize value, crates.litecoinVarInt.serialize txs.length, suffix,
    ?_, ⟨value, hread, bitcoinData_eq_ok.mp hheader⟩, ?_, txs, hextension, rfl, ?_, hall⟩
  · rw [hraw, hstart, hlawful.serialize, hsuffix, List.flatMap_def]
    simp only [List.append_assoc]
  · have hown := hlawful.varInt.reads hcount []
    rw [List.append_nil] at hown
    rw [hown, hall.length_eq]
  · intro tx hmem
    obtain ⟨raw', rest', hdecode⟩ := hmembers tx hmem
    have hown := hlawful.transaction.reads hdecode []
    rwa [List.append_nil] at hown

end Decode

end

/-! ## Inclusion proofs -/

/-- A proof is verified through what its bytes are decoded to. -/
theorem TransactionProof.verify_congr {crate : ConsensusCrate} {crates : DecodeCrates}
    {chain : Chain} {expected : Header} {proof : TransactionProof} {raw rawCoinbase : Bytes}
    (hraw : Decode.transaction crates raw chain = Decode.transaction crates proof.transaction chain)
    (hcoinbase : Decode.transaction crates rawCoinbase chain =
      Decode.transaction crates proof.coinbase chain) :
    { proof with transaction := raw, coinbase := rawCoinbase }.verify crate crates chain expected =
      (fun included => { included with raw }) <$>
        proof.verify crate crates chain expected := by
  have hfirst : decodeFor crates raw chain = decodeFor crates proof.transaction chain := by
    rw [decodeFor, decodeFor, hraw]
  have hsecond : decodeFor crates rawCoinbase chain = decodeFor crates proof.coinbase chain := by
    rw [decodeFor, decodeFor, hcoinbase]
  simp only [TransactionProof.verify, hfirst, hsecond, map_bind]
  rfl

/-! ## Splitting -/

/-- The header, the count, the transactions and what may follow them are the whole input. -/
def DecodedBlock.Covers (crates : BlockCrates) (decoders : BitcoinDecoders) (raw : Bytes)
    (encoding : Encoding) (decoded : DecodedBlock) : Chain → Prop
  | .bitcoinMainnet | .bitcoinRegtest | .bitcoinTestnet4 =>
      ∃ header count, raw = header ++ count ++ decoded.rawTransactions.flatten ∧
        header.length = 80 ∧ crates.deserializeHeader header = some decoded.block.header ∧
        decoders.count count = .ok (decoded.block.txdata.length, [])
  | .litecoinMainnet | .litecoinTestnet =>
      ∃ header count suffix, raw = header ++ count ++ decoded.rawTransactions.flatten ++ suffix ∧
        (∃ value, crates.litecoinHeader.decode header = some (value, []) ∧
          crates.deserializeHeader (crates.litecoinHeader.serialize value) =
            some decoded.block.header) ∧
        crates.litecoinVarInt.decode count = some (decoded.block.txdata.length, []) ∧
        ∃ txs, List.Forall₂ (fun raw tx => crates.litecoinDecode raw = some (tx, []))
            decoded.rawTransactions txs ∧ Decode.Extension crates encoding txs suffix

/-- The bytes of the transactions are those of a block, each at its place. -/
structure DecodedBlock.Split (crate : ConsensusCrate) (crates : BlockCrates)
    (decoders : BitcoinDecoders) (raw : Bytes) (chain : Chain) (encoding : Encoding)
    (decoded : DecodedBlock) : Prop where
  length : decoded.rawTransactions.length = decoded.block.txdata.length
  covers : decoded.Covers crates decoders raw encoding chain
  decode : List.Forall₂ (fun raw tx => Decode.transaction crates.toDecodeCrates raw chain = .ok tx)
    decoded.rawTransactions decoded.block.txdata
  txids : decoded.rawTransactions.map
      (fun raw => crate.computeTxid <$> Decode.transaction crates.toDecodeCrates raw chain) =
    decoded.block.txdata.map fun tx => .ok (crate.computeTxid tx)
  /-- The builder of a block put together from the bytes is that of the decoded block. -/
  builder : ∀ txdata,
    List.Forall₂ (fun raw tx => Decode.transaction crates.toDecodeCrates raw chain = .ok tx)
      decoded.rawTransactions txdata →
    BlockProofBuilder.new crate { decoded.block with txdata } =
      BlockProofBuilder.new crate decoded.block
  /-- A proof with the bytes of a transaction verifies as one with any other bytes of it. -/
  verify : ∀ (position : ℕ) (tx coinbase : Transaction) (proof : TransactionProof)
      (transaction rawCoinbase : Bytes) (expected : Header),
    decoded.block.txdata[position]? = some tx → decoded.block.txdata[0]? = some coinbase →
    decoded.rawTransactions[position]? = some proof.transaction →
    decoded.rawTransactions[0]? = some proof.coinbase →
    Decode.transaction crates.toDecodeCrates transaction chain = .ok tx →
    Decode.transaction crates.toDecodeCrates rawCoinbase chain = .ok coinbase →
    { proof with transaction, coinbase := rawCoinbase }.verify crate crates.toDecodeCrates chain
        expected =
      (fun included => { included with raw := transaction }) <$>
        proof.verify crate crates.toDecodeCrates chain expected

section

variable {crate : ConsensusCrate} {crates : BlockCrates} {decoders : BitcoinDecoders} {raw : Bytes}
  {chain : Chain} {encoding : Encoding} {decoded : DecodedBlock}

/-- What follows when every piece is decoded at its place. -/
theorem DecodedBlock.split_of_decode (hcovers : decoded.Covers crates decoders raw encoding chain)
    (hdecode : List.Forall₂
      (fun raw tx => Decode.transaction crates.toDecodeCrates raw chain = .ok tx)
      decoded.rawTransactions decoded.block.txdata) :
    decoded.Split crate crates decoders raw chain encoding where
  length := hdecode.length_eq
  covers := hcovers
  decode := hdecode
  txids := by
    apply List.ext_getElem (by rw [List.length_map, List.length_map, hdecode.length_eq])
    intro i hraw htx
    rw [List.getElem_map, List.getElem_map]
    rw [List.length_map] at hraw htx
    have hfirst := hdecode.get hraw htx
    simp only [List.get_eq_getElem] at hfirst
    rw [hfirst]
    rfl
  builder txdata hother := by
    have hsame : txdata = decoded.block.txdata := by
      refine List.right_unique_forall₂' ?_ hother hdecode
      intro raw tx tx' htx htx'
      rw [htx] at htx'
      exact Except.ok.inj htx'
    rw [hsame]
  verify position tx coinbase proof transaction rawCoinbase expected htx hcoinbase hraw
      hrawCoinbase hdecoded hdecodedCoinbase := by
    have hat : ∀ {i : ℕ} {raw tx}, decoded.rawTransactions[i]? = some raw →
        decoded.block.txdata[i]? = some tx →
          Decode.transaction crates.toDecodeCrates raw chain = .ok tx := by
      intro i raw tx hraw htx
      obtain ⟨hi, rfl⟩ := List.getElem?_eq_some_iff.mp hraw
      obtain ⟨hi', rfl⟩ := List.getElem?_eq_some_iff.mp htx
      exact hdecode.get hi hi'
    apply TransactionProof.verify_congr
    · rw [hdecoded, hat hraw htx]
    · rw [hdecodedCoinbase, hat hrawCoinbase hcoinbase]

theorem Decode.bounded_eq_ok {raw : Bytes} :
    Decode.bounded raw = .ok () ↔ raw.length ≤ 8000000 := by
  rw [Decode.bounded]
  split
  · next hlong => exact ⟨nofun, fun hshort => absurd hshort (Nat.not_le_of_lt hlong)⟩
  · next hshort => exact ⟨fun _ => Nat.le_of_not_lt hshort, fun _ => rfl⟩

/-- A piece of the input is no longer than it. -/
theorem length_le_of_pieces {pieces : List Bytes} {front suffix piece : Bytes}
    (hraw : raw = front ++ pieces.flatten ++ suffix) (hmem : piece ∈ pieces) :
    piece.length ≤ raw.length := by
  have hpiece := (List.sublist_flatten_of_mem hmem).length_le
  rw [hraw, List.length_append, List.length_append]
  omega

/-- **Blocks are split exactly**, for every chain and both encodings. -/
theorem decoded_blocks_split (hbitcoin : BitcoinLawful crates decoders)
    (hlitecoin : LitecoinLawful crates) {expectedHash : Bytes32}
    (h : Decode.decodeBlock crates crate raw chain expectedHash encoding = .ok decoded) :
    decoded.Split crate crates decoders raw chain encoding := by
  simp only [Decode.decodeBlock, Except.bind_eq_ok, Decode.shared_eq_ok] at h
  obtain ⟨u, hbounded, decoded', hprojection, hchecked⟩ := h
  obtain rfl : decoded' = decoded := by
    split at hchecked
    · cases hchecked
    · exact Except.ok.inj hchecked
  have hshort := Decode.bounded_eq_ok.mp hbounded
  cases chain with
  | bitcoinMainnet | bitcoinRegtest | bitcoinTestnet4 =>
      obtain ⟨header, count, hraw, hlength, hheader, hcount, hall⟩ :=
        Decode.bitcoinDecodedBlock_eq_ok hbitcoin hprojection
      refine DecodedBlock.split_of_decode ?_ ?_
      · exact ⟨header, count, hraw, hlength, hheader, hcount⟩
      have hsmall : ∀ piece ∈ decoded'.rawTransactions, piece.length ≤ 8000000 := by
        intro piece hmem
        rw [← List.append_nil (header ++ count ++ _)] at hraw
        exact Nat.le_trans (length_le_of_pieces hraw hmem) hshort
      refine ((List.forall₂_and_left _ _).mpr ⟨hsmall, hall⟩).imp ?_
      rintro piece tx ⟨hpiece, hread⟩
      rw [Decode.transaction, Decode.bounded_eq_ok.mpr hpiece, Except.ok_bind]
      show Decode.bitcoin crates.toDecodeCrates piece = _
      rw [Decode.bitcoin, hbitcoin.deserialize piece tx hread]
  | litecoinMainnet | litecoinTestnet =>
      obtain ⟨header, count, suffix, hraw, hheader, hcount, txs, hextension, hraws, hreads, hall⟩ :=
        Decode.litecoinBlock_eq_ok hlitecoin hprojection
      refine DecodedBlock.split_of_decode ?_ ?_
      · refine ⟨header, count, suffix, hraw, hheader, hcount, txs, ?_, hextension⟩
        rw [hraws, List.forall₂_map_left_iff, List.forall₂_same]
        exact hreads
      · have hsmall : ∀ tx ∈ txs, (crates.litecoinSerialize tx).length ≤ 8000000 := by
          intro tx hmem
          have hpiece : crates.litecoinSerialize tx ∈ decoded'.rawTransactions := by
            rw [hraws]
            exact List.mem_map_of_mem hmem
          exact Nat.le_trans (length_le_of_pieces hraw hpiece) hshort
        rw [hraws, List.forall₂_map_left_iff]
        have hboth : ∀ tx ∈ txs, (crates.litecoinSerialize tx).length ≤ 8000000 ∧
            crates.litecoinDecode (crates.litecoinSerialize tx) = some (tx, []) :=
          fun tx hmem => ⟨hsmall tx hmem, hreads tx hmem⟩
        refine ((List.forall₂_and_left _ _).mpr ⟨hboth, hall⟩).imp ?_
        rintro tx decoded ⟨⟨hpiece, hread⟩, htransparent⟩
        have hcanonical : Decode.canonical crates.toDecodeCrates (crates.litecoinSerialize tx) =
            .ok (tx, []) := by
          rw [Decode.canonical, hread]
          show (if _ then _ else _) = _
          rw [List.length_nil, Nat.sub_zero, List.take_length, if_neg (not_not.mpr rfl)]
        rw [Decode.transaction, Decode.bounded_eq_ok.mpr hpiece, Except.ok_bind]
        show (Decode.canonical crates.toDecodeCrates (crates.litecoinSerialize tx) >>= _) = _
        rw [hcanonical, Except.ok_bind]
        exact htransparent

end

/-! ## The standard decoders -/

namespace Standard

/-- The value that a reader finds at the front, when nothing is left of the bytes. -/
def whole {α : Type} (read : Read Unit α) (raw : Bytes) : Option α :=
  match read raw with
  | .ok (a, []) => some a
  | _ => none

/-- How many bytes a reader takes. -/
def consumed {α : Type} (read : Read Unit α) (raw : Bytes) : Option ℕ :=
  match read raw with
  | .ok (_, rest) => some (raw.length - rest.length)
  | .error _ => none

theorem whole_eq_some {α : Type} {read : Read Unit α} {raw : Bytes} {a : α} :
    whole read raw = some a ↔ read raw = .ok (a, []) := by
  rw [whole]
  split
  · next b hread =>
    rw [hread]
    simp
  · next hnot =>
    constructor
    · nofun
    · intro hread
      exact absurd hread (hnot a)

theorem consumed_eq_some {α : Type} {read : Read Unit α} {raw : Bytes} {n : ℕ}
    (h : consumed read raw = some n) :
    ∃ a rest, read raw = .ok (a, rest) ∧ n = raw.length - rest.length := by
  rw [consumed] at h
  split at h
  · next a rest hread =>
    cases h
    exact ⟨a, rest, hread, rfl⟩
  · cases h

theorem consumed_append {α : Type} {read : Read Unit α} {a : α} {used rest : Bytes}
    (h : read (used ++ rest) = .ok (a, rest)) : consumed read (used ++ rest) = some used.length := by
  rw [consumed, h, List.length_append]
  exact congrArg some (Nat.add_sub_cancel _ _)

/-- Nothing of the `litecoin` crate is decoded. -/
def noCodec (α : Type) (serialize : α → Bytes) : Codec α where
  decode _ := none
  serialize := serialize

theorem noCodec_lawful {α : Type} {serialize : α → Bytes} : (noCodec α serialize).Lawful where
  consumes := nofun
  reads := nofun

/-- The crates with the standard encoding, for Bitcoin. -/
def blockCrates : BlockCrates where
  deserialize := whole readTransaction
  LitecoinTransaction := Empty
  litecoinDecode _ := none
  litecoinSerialize := nofun
  hasMwTx := nofun
  isInputEmpty := nofun
  clearHogEx := nofun
  deserializeBlock := whole readBlock
  deserializeHeader := whole readHeader
  varIntBytes := consumed readCompact
  transactionBytes := consumed readTransaction
  LitecoinHeader := Empty
  litecoinHeader := noCodec Empty nofun
  litecoinTransactions := noCodec (List Empty) fun txs => compactSize txs.length
  litecoinVarInt := noCodec ℕ compactSize
  litecoinByte := noCodec UInt8 fun byte => [byte]
  MwebBlock := Empty
  mwebBlock := noCodec Empty nofun
  isHogEx := nofun

def decoders : BitcoinDecoders where
  transaction := readTransaction
  count := readCompact

theorem bitcoinLawful : BitcoinLawful blockCrates decoders where
  transaction := readTransaction_local
  count := readCompact_local
  deserialize _ _ h := whole_eq_some.mpr h
  transactionBytes _ _ h := consumed_eq_some h
  varIntBytes _ _ h := consumed_eq_some h
  deserializeBlock raw block h := by
    have hread := whole_eq_some.mp h
    simp only [readBlock, readCounted, Except.bind_eq_ok, Prod.exists] at hread
    obtain ⟨header, rest, hheader, txdata, left, ⟨count, middle, hcount, hmany⟩, hok⟩ := hread
    cases hok
    have hlength := readHeader_length hheader
    obtain ⟨used, rfl, hused⟩ := readHeader_local raw header rest hheader
    rw [List.length_append, Nat.add_right_cancel_iff] at hlength
    have hown := hused []
    rw [List.append_nil] at hown
    rw [List.take_left' hlength, List.drop_left' hlength]
    refine ⟨?_, whole_eq_some.mpr hown, count, middle, hcount, hmany⟩
    rw [List.length_append, hlength]
    exact Nat.le_add_right 80 _

theorem litecoinLawful : LitecoinLawful blockCrates where
  header := noCodec_lawful
  transactions := noCodec_lawful
  transaction := @noCodec_lawful Empty nofun
  varInt := noCodec_lawful
  byte := noCodec_lawful
  mwebBlock := noCodec_lawful
  serialize txs := by
    cases txs with
    | nil => rfl
    | cons tx _ => exact tx.elim
  decode := nofun

/-- The second pass over serialized transactions. -/
theorem splitTransactions_serialize {txs : List Transaction} (h : ∀ tx ∈ txs, tx.Readable) :
    Decode.splitTransactions blockCrates txs (txs.flatMap serialize) =
      .ok (txs.map serialize) := by
  induction txs with
  | nil => rfl
  | cons tx txs ih =>
      have hread := readTransaction_undoes tx (txs.flatMap serialize) (h tx List.mem_cons_self)
      have hconsumed : blockCrates.transactionBytes (serialize tx ++ txs.flatMap serialize) =
          some (serialize tx).length := consumed_append hread
      have hrest := ih fun other hmem => h other (List.mem_cons_of_mem tx hmem)
      simp only [Decode.splitTransactions, List.flatMap_cons, hconsumed, Decode.bitcoinData,
        Except.ok_bind, List.take_left' rfl, List.drop_left' rfl, hrest, List.map_cons]

/-- **A serialized block** is decoded to its transactions and their bytes. -/
theorem bitcoinDecodedBlock_serialize {block : Block} (hcount : Fits block.txdata.length)
    (h : ∀ tx ∈ block.txdata, tx.Readable) :
    Decode.bitcoinDecodedBlock blockCrates (serializeBlock block) =
      .ok ⟨block, block.txdata.map serialize⟩ := by
  have hread := readCounted_undoes readTransaction_undoes block.txdata [] ⟨hcount, h⟩
  rw [List.append_nil] at hread
  have hblock : blockCrates.deserializeBlock (serializeBlock block) = some block := by
    apply whole_eq_some.mpr
    rw [readBlock, serializeBlock, readHeader_append, Except.ok_bind]
    simp only [hread, Except.ok_bind]
  have hdrop : (serializeBlock block).drop 80 = compactSize block.txdata.length ++
      block.txdata.flatMap serialize := by
    rw [serializeBlock, List.drop_left' (serializeHeader_length block.header), counted]
  have hprefix : blockCrates.varIntBytes (compactSize block.txdata.length ++
      block.txdata.flatMap serialize) = some (compactSize block.txdata.length).length :=
    consumed_append (readCompact_undoes _ _ hcount)
  have hsplit := splitTransactions_serialize h
  simp only [Decode.bitcoinDecodedBlock, hblock, hdrop, hprefix, Decode.bitcoinData, Except.ok_bind,
    List.drop_left' rfl, hsplit]

end Standard

/-- The block with a payment. -/
theorem decoded_blocks_split_sample :
    ∃ decoded, Decode.decodeBlock Standard.blockCrates ConsensusCrate.standard
        (Standard.serializeBlock Sample.committedBlock) .bitcoinRegtest
        (ConsensusCrate.standard.blockHash Sample.committedHeader) .core = .ok decoded ∧
      decoded.rawTransactions =
        [Standard.serialize Sample.committing, Standard.serialize Sample.payment] ∧
      decoded.Split ConsensusCrate.standard Standard.blockCrates Standard.decoders
        (Standard.serializeBlock Sample.committedBlock) .bitcoinRegtest .core := by
  have hlength : (Standard.serializeBlock Sample.committedBlock).length = 271 := by
    rw [Standard.serializeBlock, List.length_append, Standard.serializeHeader_length,
      Standard.counted_length]
    simp only [Sample.committedBlock, List.map_cons, List.map_nil, List.sum_cons, List.sum_nil,
      List.length_cons, List.length_nil, Sample.serialize_committing_length,
      Sample.serialize_payment_length]
    rfl
  have hreadable : ∀ tx ∈ Sample.committedBlock.txdata, tx.Readable := by
    intro tx hmem
    apply Transaction.readable_of_length
    rcases List.mem_cons.mp hmem with rfl | hmem
    · rw [Sample.serialize_committing_length]
      decide
    · rw [List.mem_singleton.mp hmem, Sample.serialize_payment_length]
      decide
  have hdecoded : Decode.decodeBlock Standard.blockCrates ConsensusCrate.standard
      (Standard.serializeBlock Sample.committedBlock) .bitcoinRegtest
      (ConsensusCrate.standard.blockHash Sample.committedHeader) .core =
        .ok ⟨Sample.committedBlock, Sample.committedBlock.txdata.map Standard.serialize⟩ := by
    have hfits : Standard.Fits Sample.committedBlock.txdata.length := by
      show 2 < 2 ^ 64
      decide
    have hblock := Standard.bitcoinDecodedBlock_serialize hfits hreadable
    rw [Decode.decodeBlock, Decode.bounded_eq_ok.mpr (by rw [hlength]; decide), Decode.projection,
      hblock]
    simp only [Decode.shared, Except.ok_bind, Sample.committed_accepted]
  exact ⟨_, hdecoded, rfl,
    decoded_blocks_split Standard.bitcoinLawful Standard.litecoinLawful hdecoded⟩

end Urma.Chain
