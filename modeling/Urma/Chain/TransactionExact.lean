import Urma.Chain.TransactionCodec

/-!
# A transaction has one encoding

A number is written in its shortest form, and marker and flag are there only with a witness or
without inputs. So the bytes that a transaction is read from are what it is serialized to.
-/

namespace Urma.Chain.Standard

open Lib Lib.Layout Lib.Reader

/-! ## Numbers and bytes -/

theorem readLe_eq_ok {width n : ℕ} {bytes rest : Bytes} (h : readLe width bytes = .ok (n, rest)) :
    bytes = toLe width n ++ rest ∧ n < 256 ^ width := by
  rw [readLe] at h
  split at h
  · next hle =>
      cases h
      have hlength : (bytes.take width).length = width := List.length_take_of_le hle
      have hwrite := toLe_fromLe (bytes.take width)
      have hlt := fromLe_lt (bytes.take width)
      rw [hlength] at hwrite hlt
      rw [hwrite, List.take_append_drop]
      exact ⟨rfl, hlt⟩
  · cases h

theorem readMarked_eq_ok {width least n : ℕ} {bytes rest : Bytes}
    (h : readMarked width least bytes = .ok (n, rest)) :
    bytes = toLe width n ++ rest ∧ least ≤ n ∧ n < 256 ^ width := by
  obtain ⟨⟨found, left⟩, hread, h⟩ := Except.bind_eq_ok.mp h
  dsimp only at h
  split at h
  · next hleast =>
      cases h
      obtain ⟨hbytes, hlt⟩ := readLe_eq_ok hread
      exact ⟨hbytes, hleast, hlt⟩
  · cases h

/-- **A number is accepted in its shortest form only.** -/
theorem readCompact_rewrites : Rewrites readCompact compactSize := by
  intro bytes n rest h
  cases bytes with
  | nil => cases h
  | cons byte bytes =>
      rw [readCompact] at h
      split at h
      · next hmarker =>
          obtain ⟨hbytes, hleast, _⟩ := readMarked_eq_ok h
          rw [compactSize, if_neg (by omega), if_neg (by omega), if_neg (by omega), hmarker, hbytes]
          rfl
      · split at h
        · next hmarker =>
            obtain ⟨hbytes, hleast, hlt⟩ := readMarked_eq_ok h
            rw [compactSize, if_neg (by omega), if_neg (by omega), if_pos (by omega), hmarker,
              hbytes]
            rfl
        · split at h
          · next hmarker =>
              obtain ⟨hbytes, hleast, hlt⟩ := readMarked_eq_ok h
              rw [compactSize, if_neg (by omega), if_pos (by omega), hmarker, hbytes]
              rfl
          · next hff hfe hfd =>
              cases h
              have hne : ∀ marker : UInt8, byte ≠ marker → byte.toNat ≠ marker.toNat :=
                fun marker hbyte heq => hbyte (UInt8.toNat_inj.mp heq)
              have hlt := byte.toNat_lt
              have h0 : byte.toNat ≠ 255 := hne 0xff hff
              have h1 : byte.toNat ≠ 254 := hne 0xfe hfe
              have h2 : byte.toNat ≠ 253 := hne 0xfd hfd
              rw [compactSize, if_pos (by omega), UInt8.ofNat_toNat]
              rfl

theorem readLengthed_rewrites : Rewrites readLengthed lengthed := by
  intro bytes item rest h
  obtain ⟨⟨length, left⟩, hread, h⟩ := Except.bind_eq_ok.mp h
  dsimp only at h
  split at h
  · next hle =>
      cases h
      rw [readCompact_rewrites _ _ _ hread, lengthed, List.length_take_of_le hle,
        List.append_assoc, List.take_append_drop]
  · cases h

theorem readCounted_rewrites {α : Type} {read : Read Unit α} {write : α → Bytes}
    (h : Rewrites read write) : Rewrites (readCounted read) (counted write) := by
  intro bytes items rest hread
  obtain ⟨⟨count, left⟩, hcount, hitems⟩ := Except.bind_eq_ok.mp hread
  rw [readCompact_rewrites _ _ _ hcount, h.readMany count _ _ _ hitems, counted,
    readMany_length hitems, List.append_assoc]

theorem readHash_rewrites : Rewrites readHash fun hash : Bytes32 => hash.toList := by
  intro bytes hash rest h
  rw [readHash] at h
  split at h
  · cases h
    show bytes = (bytes.take 32).toArray.toList ++ bytes.drop 32
    rw [List.toList_toArray, List.take_append_drop]
  · cases h

/-! ## Inputs and outputs -/

/-- An input is read without a witness. -/
theorem readInput_eq_ok {bytes rest : Bytes} {item : TxIn} (h : readInput bytes = .ok (item, rest)) :
    bytes = input item ++ rest ∧ item.witness = [] := by
  obtain ⟨⟨hash, afterHash⟩, hhash, h⟩ := Except.bind_eq_ok.mp h
  obtain ⟨⟨vout, afterVout⟩, hvout, h⟩ := Except.bind_eq_ok.mp h
  obtain ⟨⟨script, afterScript⟩, hscript, h⟩ := Except.bind_eq_ok.mp h
  obtain ⟨⟨sequence, left⟩, hsequence, h⟩ := Except.bind_eq_ok.mp h
  cases h
  obtain ⟨hvout, hvoutLt⟩ := readLe_eq_ok hvout
  obtain ⟨hsequence, hsequenceLt⟩ := readLe_eq_ok hsequence
  refine ⟨?_, rfl⟩
  rw [readHash_rewrites _ _ _ hhash, hvout, readLengthed_rewrites _ _ _ hscript, hsequence, input]
  show _ = hash.toList ++ toLe 4 (UInt32.ofNat vout).toNat ++ lengthed script ++
    toLe 4 (UInt32.ofNat sequence).toNat ++ _
  rw [UInt32.toNat_ofNat_of_lt' hvoutLt, UInt32.toNat_ofNat_of_lt' hsequenceLt, List.append_assoc,
    List.append_assoc, List.append_assoc]

theorem readInput_rewrites : Rewrites readInput input :=
  fun _ _ _ h => (readInput_eq_ok h).1

theorem readOutput_rewrites : Rewrites readOutput output := by
  intro bytes item rest h
  obtain ⟨⟨value, afterValue⟩, hvalue, h⟩ := Except.bind_eq_ok.mp h
  obtain ⟨⟨script, left⟩, hscript, h⟩ := Except.bind_eq_ok.mp h
  cases h
  obtain ⟨hvalue, hlt⟩ := readLe_eq_ok hvalue
  rw [hvalue, readLengthed_rewrites _ _ _ hscript, output]
  show _ = toLe 8 (UInt64.ofNat value).toNat ++ lengthed script ++ _
  rw [UInt64.toNat_ofNat_of_lt' hlt, List.append_assoc]

/-- No input has a witness yet. -/
theorem readMany_witness {count : ℕ} {bytes rest : Bytes} {inputs : List TxIn}
    (h : readMany readInput count bytes = .ok (inputs, rest)) :
    ∀ item ∈ inputs, item.witness = [] := by
  induction count generalizing bytes inputs with
  | zero =>
      cases h
      exact fun item hitem => absurd hitem List.not_mem_nil
  | succ count ih =>
      obtain ⟨⟨first, left⟩, hfirst, h⟩ := Except.bind_eq_ok.mp h
      obtain ⟨⟨others, last⟩, hothers, h⟩ := Except.bind_eq_ok.mp h
      cases h
      intro item hitem
      rcases List.mem_cons.mp hitem with rfl | hitem
      · exact (readInput_eq_ok hfirst).2
      · exact ih hothers item hitem

/-- The witnesses are those of the inputs, which are otherwise as they were. -/
theorem readWitnesses_eq_ok {inputs found : List TxIn} {bytes rest : Bytes}
    (h : readWitnesses inputs bytes = .ok (found, rest)) :
    bytes = found.flatMap (fun input => counted lengthed input.witness) ++ rest ∧
      found.map TxIn.strip = inputs.map TxIn.strip := by
  induction inputs generalizing bytes found with
  | nil =>
      cases h
      exact ⟨rfl, rfl⟩
  | cons item inputs ih =>
      obtain ⟨⟨witness, left⟩, hwitness, h⟩ := Except.bind_eq_ok.mp h
      obtain ⟨⟨others, last⟩, hothers, h⟩ := Except.bind_eq_ok.mp h
      cases h
      obtain ⟨hbytes, hstrip⟩ := ih hothers
      refine ⟨?_, ?_⟩
      · rw [readCounted_rewrites readLengthed_rewrites _ _ _ hwitness, hbytes, List.flatMap_cons,
          List.append_assoc]
      · rw [List.map_cons, List.map_cons, hstrip]
        rfl

/-! ## Transactions -/

/-- **What a transaction is read from** is what it is serialized to. -/
theorem readTransaction_rewrites : Rewrites readTransaction serialize := by
  intro bytes tx rest h
  obtain ⟨⟨version, afterVersion⟩, hversion, h⟩ := Except.bind_eq_ok.mp h
  obtain ⟨⟨inputs, afterInputs⟩, hinputs, h⟩ := Except.bind_eq_ok.mp h
  obtain ⟨hversion, hversionLt⟩ := readLe_eq_ok hversion
  have hcounted := readCounted_rewrites readInput_rewrites _ _ _ hinputs
  dsimp only at hversion hcounted h
  split at h
  · next hempty =>
      rw [List.isEmpty_iff] at hempty
      obtain ⟨⟨flag, afterFlag⟩, hflag, h⟩ := Except.bind_eq_ok.mp h
      obtain ⟨hflag, _⟩ := readLe_eq_ok hflag
      dsimp only at hflag h
      split at h
      · next hone =>
          obtain ⟨⟨stripped, afterStripped⟩, hstripped, h⟩ := Except.bind_eq_ok.mp h
          obtain ⟨⟨outputs, afterOutputs⟩, houtputs, h⟩ := Except.bind_eq_ok.mp h
          obtain ⟨⟨inputs', afterWitnesses⟩, hwitnesses, h⟩ := Except.bind_eq_ok.mp h
          obtain ⟨⟨lockTime, left⟩, hlockTime, h⟩ := Except.bind_eq_ok.mp h
          obtain ⟨hlockTime, hlockTimeLt⟩ := readLe_eq_ok hlockTime
          obtain ⟨hwitnesses, hstrip⟩ := readWitnesses_eq_ok hwitnesses
          have hinputs' := readCounted_rewrites readInput_rewrites _ _ _ hstripped
          have houtputs' := readCounted_rewrites readOutput_rewrites _ _ _ houtputs
          dsimp only at hlockTime hwitnesses hinputs' houtputs' h
          split at h
          · cases h
          · next hsome =>
              cases h
              have hsegwit : (inputs'.isEmpty || inputs'.any fun input => !input.witness.isEmpty) =
                  true := by
                cases hnone : inputs'.isEmpty with
                | true => rfl
                | false =>
                    rw [hnone, Bool.not_false, Bool.true_and, Bool.not_eq_true,
                      List.all_eq_false] at hsome
                    obtain ⟨item, hitem, hwitness⟩ := hsome
                    rw [Bool.false_or, List.any_eq_true]
                    refine ⟨item, hitem, ?_⟩
                    rw [Bool.not_eq_true] at hwitness
                    rw [hwitness]
                    rfl
              rw [serialize, if_pos hsegwit, body]
              show bytes = toLe 4 (UInt32.ofNat version).toNat ++ [0, 1] ++
                (counted input inputs' ++ counted output outputs) ++
                  inputs'.flatMap (fun input => counted lengthed input.witness) ++
                    toLe 4 (UInt32.ofNat lockTime).toNat ++ rest
              rw [UInt32.toNat_ofNat_of_lt' hversionLt, UInt32.toNat_ofNat_of_lt' hlockTimeLt,
                ← counted_strip inputs', hstrip, counted_strip, hversion, hcounted, hempty, hflag,
                hone, hinputs', houtputs', hwitnesses, hlockTime]
              simp only [List.append_assoc]
              rfl
      · cases h
  · next hempty =>
      obtain ⟨⟨outputs, afterOutputs⟩, houtputs, h⟩ := Except.bind_eq_ok.mp h
      obtain ⟨⟨lockTime, left⟩, hlockTime, h⟩ := Except.bind_eq_ok.mp h
      obtain ⟨hlockTime, hlockTimeLt⟩ := readLe_eq_ok hlockTime
      have houtputs' := readCounted_rewrites readOutput_rewrites _ _ _ houtputs
      dsimp only at hlockTime houtputs' h
      cases h
      obtain ⟨⟨count, afterCount⟩, _, hmany⟩ := Except.bind_eq_ok.mp hinputs
      have hsegwit : ¬ (inputs.isEmpty || inputs.any fun input => !input.witness.isEmpty) = true := by
        rw [Bool.or_eq_true, not_or]
        refine ⟨hempty, fun hany => ?_⟩
        obtain ⟨item, hitem, hwitness⟩ := List.any_eq_true.mp hany
        rw [readMany_witness hmany item hitem] at hwitness
        cases hwitness
      rw [serialize, if_neg hsegwit, serializeBase, body]
      show bytes = toLe 4 (UInt32.ofNat version).toNat ++ (counted input inputs ++
        counted output outputs) ++ toLe 4 (UInt32.ofNat lockTime).toNat ++ rest
      rw [UInt32.toNat_ofNat_of_lt' hversionLt, UInt32.toNat_ofNat_of_lt' hlockTimeLt, hversion,
        hcounted, houtputs', hlockTime]
      simp only [List.append_assoc]

/-- **A transaction has one encoding.** -/
theorem serialize_of_deserialize {bytes : Bytes} {tx : Transaction}
    (h : deserialize bytes = .ok tx) : serialize tx = bytes := by
  obtain ⟨⟨found, rest⟩, hread, h⟩ := Except.bind_eq_ok.mp h
  dsimp only at h
  split at h
  · next hempty =>
      cases h
      rw [List.isEmpty_iff] at hempty
      rw [readTransaction_rewrites _ _ _ hread, hempty, List.append_nil]
  · cases h

end Urma.Chain.Standard
