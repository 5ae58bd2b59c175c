import Urma.Runtime.PrepareExact
import Urma.Runtime.Transfer

/-!
# What a transfer pays for

The virtual size of a draft by the number of its inputs: every input of the signed draft weighs 273,
so that the second one adds 68 virtual bytes and fifty of them round to no more than 68 each and 68
in all. What is signed is no larger than its draft.
-/

namespace Urma.Runtime

open Chain Lib

/-- What a transfer relies on of its crates: the weight is that of the standard encoding, a
signature has at most 73 bytes and a key 33. -/
structure PrepareCrates.Weighs (crates : PrepareCrates) : Prop where
  weight : ∀ tx, crates.weight tx = tx.weight
  ecdsa_length : ∀ hash child,
    (crates.ecdsaSerialize ⟨crates.signEcdsa hash child, .all⟩).length ≤ 73
  publicKey_length : ∀ child, (crates.publicKey child).length = 33

variable {crates : PrepareCrates} {account : Account crates.PrivateKey} {tx : Transaction}

theorem PrepareCrates.Lawful.weighs (h : crates.Lawful) : crates.Weighs :=
  ⟨h.weight, h.ecdsa_length, h.publicKey_length⟩

/-! ## Sizes -/

/-- The size of the outputs of a transaction. -/
def outputsSize (outputs : List TxOut) : ℕ :=
  (Standard.counted Standard.output outputs).length

/-- It depends on their scripts only. -/
theorem outputsSize_congr {outputs outputs' : List TxOut}
    (h : outputs.map TxOut.scriptPubkey = outputs'.map TxOut.scriptPubkey) :
    outputsSize outputs = outputsSize outputs' := by
  have hlength : outputs.length = outputs'.length := by
    rw [← List.length_map TxOut.scriptPubkey, h, List.length_map]
  have hsizes : ∀ list : List TxOut, (list.map fun output => (Standard.output output).length) =
      (list.map TxOut.scriptPubkey).map fun script => 8 + (Standard.lengthed script).length := by
    intro list
    rw [List.map_map]
    apply List.map_congr_left
    intro output _
    exact Standard.output_length output
  rw [outputsSize, outputsSize, Standard.counted_length, Standard.counted_length, hlength, hsizes,
    hsizes, h]

/-- The weight of a spend, whose inputs have no scripts. -/
theorem weight_le (hinputs : tx.input.length < 253) (hscripts : ∀ input ∈ tx.input, input.scriptSig = []) :
    tx.weight ≤ 38 + 164 * tx.input.length + 4 * outputsSize tx.output +
      Standard.witnessSize tx.input := by
  have htotal := Standard.serialize_length_le tx
  have hbase := Standard.serializeBase_length tx
  rw [Standard.body, List.length_append, inputs_length hinputs hscripts, ← outputsSize] at hbase
  rw [Transaction.weight]
  omega

theorem weight_eq (hinputs : tx.input.length < 253) (hscripts : ∀ input ∈ tx.input, input.scriptSig = [])
    (hany : tx.input.any (fun input => !input.witness.isEmpty) = true) :
    tx.weight = 38 + 164 * tx.input.length + 4 * outputsSize tx.output +
      Standard.witnessSize tx.input := by
  have htotal := Standard.serialize_length hany
  have hbase := Standard.serializeBase_length tx
  rw [Standard.body, List.length_append, inputs_length hinputs hscripts, ← outputsSize] at hbase
  rw [Transaction.weight]
  omega

/-- The virtual size of a draft with so many inputs, by the size of its outputs. -/
def draftVsize (inputs outputs : ℕ) : ℕ :=
  (41 + 273 * inputs + 4 * outputs) / 4

theorem signedVsize_le (h : crates.Weighs) (hinputs : tx.input.length < 253)
    (hscripts : ∀ input ∈ tx.input, input.scriptSig = []) :
    signedVsize crates tx ≤ draftVsize tx.input.length (outputsSize tx.output) := by
  have hweight := @weight_le (withWitnesses tx [List.replicate 73 0, List.replicate 33 0])
    (by rwa [withWitnesses, List.length_map]) (by
      intro input hinput
      obtain ⟨blank, hblank, rfl⟩ := List.mem_map.mp hinput
      exact hscripts blank hblank)
  rw [withWitnesses, witnessSize_replicate (by decide) (by decide), List.length_replicate,
    List.length_map, ← withWitnesses] at hweight
  have houtput : (withWitnesses tx [List.replicate 73 0, List.replicate 33 0]).output = tx.output :=
    rfl
  rw [houtput] at hweight
  rw [signedVsize, PublishCrates.vsize, h.weight, draftVsize]
  exact Nat.div_le_div_right (by omega)

/-- **The virtual size of a signed draft.** -/
theorem signedVsize_eq (h : crates.Weighs) (hinputs : tx.input.length < 253) (hne : tx.input ≠ [])
    (hscripts : ∀ input ∈ tx.input, input.scriptSig = []) :
    signedVsize crates tx = draftVsize tx.input.length (outputsSize tx.output) := by
  have hany : (withWitnesses tx [List.replicate 73 0, List.replicate 33 0]).input.any
      (fun input => !input.witness.isEmpty) = true := by
    obtain ⟨input, rest, hcons⟩ := List.exists_cons_of_ne_nil hne
    rw [withWitnesses, hcons]
    rfl
  have hweight := @weight_eq (withWitnesses tx [List.replicate 73 0, List.replicate 33 0])
    (by rwa [withWitnesses, List.length_map]) (by
      intro input hinput
      obtain ⟨blank, hblank, rfl⟩ := List.mem_map.mp hinput
      exact hscripts blank hblank) hany
  rw [withWitnesses, witnessSize_replicate (by decide) (by decide), List.length_replicate,
    List.length_map, ← withWitnesses] at hweight
  have houtput : (withWitnesses tx [List.replicate 73 0, List.replicate 33 0]).output = tx.output :=
    rfl
  rw [signedVsize, PublishCrates.vsize, h.weight, draftVsize, hweight, houtput]
  congr 1
  omega

/-- The second input adds 68. -/
theorem draftVsize_two (outputs : ℕ) : draftVsize 2 outputs = draftVsize 1 outputs + 68 := by
  rw [draftVsize, draftVsize]
  omega

/-- **Linear pricing is enough**: up to fifty inputs weigh no more than one and 68 for each. -/
theorem draftVsize_le_linear {inputs : ℕ} (h : inputs ≤ walletMaxInputs) (outputs : ℕ) :
    draftVsize inputs outputs ≤ draftVsize 1 outputs + 68 * inputs := by
  rw [walletMaxInputs] at h
  rw [draftVsize, draftVsize]
  omega

/-! ## Signing -/

/-- What signing leaves of the inputs, and the witnesses it adds. -/
theorem signInputs_strip (h : crates.Weighs) {index : ℕ} {rows : List (TxIn × TxOut × KeyPath)}
    {signed : List TxIn} (hsigned : account.signInputs crates tx index rows = .ok signed) :
    signed.map TxIn.strip = (rows.map Prod.fst).map TxIn.strip ∧
      ∀ input ∈ signed, ∃ signature key, input.witness = [signature, key] ∧
        signature.length ≤ 73 ∧ key.length = 33 := by
  induction rows generalizing index signed with
  | nil =>
      cases hsigned
      refine ⟨rfl, ?_⟩
      intro input hinput
      cases hinput
  | cons row rows ih =>
      obtain ⟨input, previous, path⟩ := row
      simp only [Account.signInputs, Except.bind_eq_ok] at hsigned
      obtain ⟨expected, -, hsigned⟩ := hsigned
      split at hsigned
      · cases hsigned
      · simp only [Except.bind_eq_ok] at hsigned
        obtain ⟨digest, -, child, -, _, -, rest, hrest, hsigned⟩ := hsigned
        cases hsigned
        obtain ⟨hstrip, hwitness⟩ := ih hrest
        refine ⟨?_, ?_⟩
        · simp only [List.map_cons, hstrip]
          rfl
        · intro other hother
          rcases List.mem_cons.mp hother with rfl | hother
          · exact ⟨_, _, rfl, h.ecdsa_length digest child, h.publicKey_length child⟩
          · exact hwitness other hother

/-- What the account signs is the transaction, with a signature and a key for each input. -/
structure IsSigned (tx signed : Transaction) : Prop where
  some_input : tx.input ≠ []
  strip : signed.input.map TxIn.strip = tx.input.map TxIn.strip
  output : signed.output = tx.output
  witness : ∀ input ∈ signed.input, ∃ signature key, input.witness = [signature, key] ∧
    signature.length ≤ 73 ∧ key.length = 33

theorem sign_isSigned (h : crates.Weighs) {signed : Transaction} {previous : List TxOut}
    {maximum : ℕ} {paths : List KeyPath}
    (hsigned : account.sign crates tx previous maximum paths = .ok signed) :
    IsSigned tx signed := by
  rw [Account.sign] at hsigned
  split at hsigned
  · cases hsigned
  · next hcounts =>
    simp only [Bool.or_eq_true, List.isEmpty_iff, decide_eq_true_eq, ne_eq, not_or,
      not_not] at hcounts
    obtain ⟨⟨hne, hprevious⟩, hpaths⟩ := hcounts
    split at hsigned
    · cases hsigned
    · obtain ⟨_, _, hsigned⟩ := Except.bind_eq_ok.mp hsigned
      obtain ⟨inputs, hinputs, hsigned⟩ := Except.bind_eq_ok.mp hsigned
      cases hsigned
      obtain ⟨hstrip, hwitness⟩ := signInputs_strip h hinputs
      rw [List.map_fst_zip (by rw [List.length_zip]; omega)] at hstrip
      exact ⟨hne, hstrip, rfl, hwitness⟩

theorem IsSigned.length {signed : Transaction} (h : IsSigned tx signed) :
    signed.input.length = tx.input.length := by
  rw [← List.length_map TxIn.strip, h.strip, List.length_map]

/-- What holds of the scripts and outpoints of the inputs holds of the signed ones. -/
theorem IsSigned.scripts {signed : Transaction} (h : IsSigned tx signed)
    (hscripts : ∀ input ∈ tx.input, input.scriptSig = []) :
    ∀ input ∈ signed.input, input.scriptSig = [] := by
  intro input hinput
  have hmem : input.strip ∈ tx.input.map TxIn.strip := by
    rw [← h.strip]
    exact List.mem_map_of_mem hinput
  obtain ⟨unsigned, hunsigned, heq⟩ := List.mem_map.mp hmem
  have hscript : unsigned.strip.scriptSig = input.strip.scriptSig := congrArg TxIn.scriptSig heq
  show input.strip.scriptSig = []
  rw [← hscript]
  exact hscripts unsigned hunsigned

theorem IsSigned.outpoints {signed : Transaction} (h : IsSigned tx signed) :
    signed.input.map TxIn.previousOutput = tx.input.map TxIn.previousOutput := by
  have hmap : ∀ inputs : List TxIn,
      inputs.map TxIn.previousOutput = (inputs.map TxIn.strip).map TxIn.previousOutput := by
    intro inputs
    rw [List.map_map]
    rfl
  rw [hmap, h.strip, ← hmap]

/-- **What is signed is no larger than its draft**, whatever is put in place of its witnesses. -/
theorem IsSigned.vsize_le (h : crates.Weighs) {signed : Transaction} (hsigned : IsSigned tx signed)
    (hinputs : tx.input.length < 253) (hscripts : ∀ input ∈ tx.input, input.scriptSig = []) :
    crates.vsize signed ≤ draftVsize tx.input.length (outputsSize tx.output) ∧
      signedVsize crates signed ≤ draftVsize tx.input.length (outputsSize tx.output) := by
  have hblank := hsigned.scripts hscripts
  have hsmall : signed.input.length < 253 := by
    rw [hsigned.length]
    exact hinputs
  refine ⟨?_, ?_⟩
  · have hweight := weight_le hsmall hblank
    have hwitness := witnessSize_le (by decide) hsigned.witness
    rw [hsigned.length, hsigned.output] at hweight
    rw [hsigned.length] at hwitness
    rw [PublishCrates.vsize, h.weight, draftVsize]
    exact Nat.div_le_div_right (by omega)
  · have hle := signedVsize_le h hsmall hblank
    rwa [hsigned.length, hsigned.output] at hle

end Urma.Runtime
