import Urma.Chain.TransactionCodec
import Urma.Core.EnvelopeExact
import Urma.Runtime.Prepare

/-!
# The sizes of commits and reveals

The weight of a commit depends on the number of its inputs only, and that of a reveal on the
length of its script. So both fees of a record are known before anything is signed.
-/

namespace Urma.Runtime

open Chain Lib

/-! ## Encodings -/

theorem compactSize_length_small {n : ℕ} (h : n < 253) :
    (Standard.compactSize n).length = 1 := by
  rw [Standard.compactSize, if_pos h]
  rfl

/-- The inputs of a publication have no script. -/
theorem inputs_length {inputs : List TxIn} (hlength : inputs.length < 253)
    (h : ∀ input ∈ inputs, input.scriptSig = []) :
    (Standard.counted Standard.input inputs).length = 1 + 41 * inputs.length := by
  have hsum : (inputs.map fun input => (Standard.input input).length).sum =
      41 * inputs.length := by
    have hall : inputs.map (fun input => (Standard.input input).length) =
        List.replicate inputs.length 41 := by
      rw [List.eq_replicate_iff]
      refine ⟨List.length_map _, ?_⟩
      intro size hsize
      obtain ⟨input, hinput, rfl⟩ := List.mem_map.mp hsize
      rw [Standard.input_length, h input hinput]
      rfl
    rw [hall, List.sum_replicate_nat, Nat.mul_comm]
  rw [Standard.counted_length, hsum, compactSize_length_small hlength]

theorem output_length_small {output : TxOut} (h : output.scriptPubkey.length < 253) :
    (Standard.output output).length = 9 + output.scriptPubkey.length := by
  rw [Standard.output_length, Standard.lengthed_length, compactSize_length_small h]
  omega

/-- The size of a witness that is a signature and a key. -/
theorem funding_witness_length {signature key : Bytes} (hsignature : signature.length < 253)
    (hkey : key.length = 33) :
    (Standard.counted Standard.lengthed [signature, key]).length = 36 + signature.length := by
  simp only [Standard.counted_length, List.length_cons, List.length_nil, List.map_cons,
    List.map_nil, List.sum_cons, List.sum_nil, Standard.lengthed_length, hkey,
    compactSize_length_small hsignature]
  rw [compactSize_length_small (by decide), compactSize_length_small (by decide)]
  omega

/-! ## Commits -/

section Commit

variable {outpoints : List OutPoint} {published change : TxOut}

/-- The encoding of a commit without its witnesses, whatever these are. -/
theorem commit_base_length {commit : Transaction} (hinputs : commit.input.length < 253)
    (hscripts : ∀ input ∈ commit.input, input.scriptSig = [])
    (houtputs : commit.output = [published, change])
    (hpublished : published.scriptPubkey.length = 34) (hchange : change.scriptPubkey.length = 22) :
    (Standard.serializeBase commit).length = 84 + 41 * commit.input.length := by
  have houtput : (Standard.counted Standard.output commit.output).length = 75 := by
    rw [houtputs]
    simp only [Standard.counted_length, List.length_cons, List.length_nil, List.map_cons,
      List.map_nil, List.sum_cons, List.sum_nil,
      output_length_small (show published.scriptPubkey.length < 253 by omega),
      output_length_small (show change.scriptPubkey.length < 253 by omega), hpublished, hchange,
      @compactSize_length_small (0 + 1 + 1) (by decide), Nat.reduceAdd]
  rw [Standard.serializeBase_length, Standard.body, List.length_append,
    inputs_length hinputs hscripts, houtput]
  omega

/-- The size of witnesses that are a signature and a key each. -/
theorem witnessSize_le {inputs : List TxIn} {most : ℕ} (hmost : most < 253)
    (h : ∀ input ∈ inputs, ∃ signature key, input.witness = [signature, key] ∧
      signature.length ≤ most ∧ key.length = 33) :
    Standard.witnessSize inputs ≤ (36 + most) * inputs.length := by
  induction inputs with
  | nil => exact Nat.le_refl 0
  | cons input inputs ih =>
      have hrest := ih fun other hother => h other (List.mem_cons_of_mem input hother)
      obtain ⟨signature, key, hwitness, hsignature, hkey⟩ := h input List.mem_cons_self
      rw [Standard.witnessSize] at hrest ⊢
      rw [List.map_cons, List.sum_cons, hwitness,
        funding_witness_length (by omega) hkey, List.length_cons, Nat.mul_succ]
      omega

theorem witnessSize_replicate {inputs : List TxIn} {signature key : Bytes}
    (hsignature : signature.length < 253) (hkey : key.length = 33) :
    Standard.witnessSize (inputs.map fun input => { input with witness := [signature, key] }) =
      (36 + signature.length) * inputs.length := by
  rw [Standard.witnessSize, List.map_map]
  have hall : inputs.map ((fun input => (Standard.counted Standard.lengthed
      input.witness).length) ∘ fun input : TxIn => { input with witness := [signature, key] }) =
      List.replicate inputs.length (36 + signature.length) := by
    rw [List.eq_replicate_iff]
    refine ⟨List.length_map _, ?_⟩
    intro size hsize
    obtain ⟨input, _, rfl⟩ := List.mem_map.mp hsize
    exact funding_witness_length hsignature hkey
  rw [hall, List.sum_replicate_nat, Nat.mul_comm]

/-- **The virtual size of a signed commit** by the number of its inputs. -/
theorem commit_vsize (hlength : outpoints.length < 253) (hne : outpoints ≠ [])
    (hpublished : published.scriptPubkey.length = 34) (hchange : change.scriptPubkey.length = 22) :
    (withWitnesses (commitOf outpoints published change)
        [List.replicate 73 0, List.replicate 33 0]).vsize = (341 + 273 * outpoints.length) / 4 := by
  have hcount : (withWitnesses (commitOf outpoints published change)
      [List.replicate 73 0, List.replicate 33 0]).input.length = outpoints.length := by
    simp only [withWitnesses, commitOf, spending, List.length_map]
  have hbase := @commit_base_length published change (withWitnesses
    (commitOf outpoints published change) [List.replicate 73 0, List.replicate 33 0])
    (by omega) (by
      intro input hinput
      simp only [withWitnesses, commitOf, spending, List.mem_map] at hinput
      obtain ⟨_, ⟨_, _, rfl⟩, rfl⟩ := hinput
      rfl) rfl hpublished hchange
  have hwitness : Standard.witnessSize (withWitnesses (commitOf outpoints published change)
      [List.replicate 73 0, List.replicate 33 0]).input = 109 * outpoints.length := by
    rw [withWitnesses, witnessSize_replicate (by decide) (by decide), List.length_replicate]
    simp only [commitOf, spending, List.length_map]
  have hany : (withWitnesses (commitOf outpoints published change)
      [List.replicate 73 0, List.replicate 33 0]).input.any
        (fun input => !input.witness.isEmpty) = true := by
    obtain ⟨outpoint, rest, hcons⟩ := List.exists_cons_of_ne_nil hne
    rw [hcons]
    rfl
  have htotal := Standard.serialize_length hany
  rw [Transaction.vsize, Transaction.weight, htotal, hbase, hwitness, hcount]
  omega

end Commit

/-! ## Reveals -/

/-- The weight of a reveal by the lengths of its script and of the script of its output. -/
theorem reveal_weight_of {outpoint : OutPoint} {output : TxOut} {signature script control : Bytes}
    (houtput : output.scriptPubkey.length < 253) (hsignature : signature.length = 64)
    (hcontrol : control.length = 33) :
    (revealOf outpoint output [signature, script, control]).weight =
      342 + 4 * output.scriptPubkey.length + (Standard.compactSize script.length).length +
        script.length := by
  have hwitness : Standard.witnessSize (revealOf outpoint output
      [signature, script, control]).input =
        100 + (Standard.compactSize script.length).length + script.length := by
    simp only [Standard.witnessSize, revealOf, withWitnesses, spending, List.map_cons, List.map_nil,
      List.sum_cons, List.sum_nil, Standard.counted_length, Standard.lengthed_length,
      List.length_cons, List.length_nil, hsignature, hcontrol,
      @compactSize_length_small (0 + 1 + 1 + 1) (by decide),
      @compactSize_length_small 64 (by decide), @compactSize_length_small 33 (by decide)]
    omega
  have hbase : (Standard.serializeBase (revealOf outpoint output
      [signature, script, control])).length = 60 + output.scriptPubkey.length := by
    have hinput : (Standard.counted Standard.input (revealOf outpoint output
        [signature, script, control]).input).length = 42 :=
      inputs_length (show 1 < 253 by decide) (by
        intro input hinput
        rw [List.mem_singleton.mp hinput])
    have hcounted : (Standard.counted Standard.output [output]).length =
        10 + output.scriptPubkey.length := by
      simp only [Standard.counted_length, List.length_cons, List.length_nil, List.map_cons,
        List.map_nil, List.sum_cons, List.sum_nil, output_length_small houtput,
        @compactSize_length_small (0 + 1) (by decide)]
      omega
    rw [Standard.serializeBase_length, Standard.body, List.length_append, hinput]
    show 8 + (42 + (Standard.counted Standard.output [output]).length) = _
    rw [hcounted]
    omega
  rw [Transaction.weight, Standard.serialize_length rfl, hbase, hwitness]
  omega

/-- The weight of a reveal by the length of its script. -/
theorem reveal_weight {outpoint : OutPoint} {output : TxOut} {signature script control : Bytes}
    (houtput : output.scriptPubkey.length = 22) (hsignature : signature.length = 64)
    (hcontrol : control.length = 33) :
    (revealOf outpoint output [signature, script, control]).weight =
      430 + (Standard.compactSize script.length).length + script.length := by
  rw [reveal_weight_of (by omega) hsignature hcontrol, houtput]

end Urma.Runtime
