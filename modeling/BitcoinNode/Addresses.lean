import BitcoinNode.SpendableOutputs

/-! Base58Check texts. Addresses and keys are told apart by their lengths only, and paying an
address leaves out its version byte. -/
namespace BitcoinNode

section Addresses

variable [WalletCrates]

/-- What is documented of `bs58`: both directions are standard Base58. -/
structure WalletCrates.StandardBase58 : Prop where
  encode : ∀ bytes, Crates.bs58Encode bytes = Base58.encode bytes
  decode : ∀ text bytes, WalletCrates.bs58Decode text = .ok bytes ↔ Base58.decode text = some bytes

def base58check (bytes : List UInt8) : String := Base58.encode (bytes ++ addressChecksum bytes)

theorem testnet_address_eq (pubkeyHash : U8Array 20) :
    testnetAddress pubkeyHash = base58check (0x6f :: pubkeyHash.val) := rfl

def p2pkhScript (pubkeyHash : U8Array 20) : List UInt8 :=
  [opDup, opHash160, 20] ++ pubkeyHash.val ++ [opEqualverify, opChecksig]

theorem WalletCrates.StandardBase58.decode_base58check (standard : WalletCrates.StandardBase58)
    (bytes : List UInt8) :
    WalletCrates.bs58Decode (base58check bytes) = .ok (bytes ++ addressChecksum bytes) :=
  (standard.decode _ _).mpr (Base58.decode_encode _)

theorem base58check_injective : Function.Injective base58check := by
  intro bytes bytes' same
  have joined := Base58.encode_injective same
  exact (List.append_inj' joined (by rw [address_checksum_length, address_checksum_length])).1

theorem validate_address_iff (standard : WalletCrates.StandardBase58) {address : String} :
    validateAddress address = .ok () ↔
      Str.len address.toList = 34 ∧ ∃ bytes, address = base58check bytes := by
  rw [validateAddress]
  by_cases length : Str.len address.toList = 34
  · rw [if_neg (not_not_intro length), and_iff_right length]
    constructor
    · intro accepted
      obtain ⟨decoded, read, accepted⟩ := Outcome.bind_eq_ok.mp accepted
      obtain ⟨stop, _, accepted⟩ := Outcome.bind_eq_ok.mp accepted
      split_ifs at accepted with checked
      · cases accepted
      rcases standardRead : WalletCrates.bs58Decode address with e | bytes <;> rw [standardRead] at read
      · cases read
      cases read
      refine ⟨decoded.take stop, ?_⟩
      rw [base58check, ← not_not.mp checked, List.take_append_drop]
      exact Base58.decode_eq_some_iff.mp ((standard.decode _ _).mp standardRead)
    · rintro ⟨bytes, rfl⟩
      rw [standard.decode_base58check]
      simp [Outcome.ofResult, checkedLengthSub, address_checksum_length]
  · rw [if_pos length]
    exact iff_of_false (by simp [Outcome.fail]) fun accepted => length accepted.1

/-- What is cut out of an accepted address has to be as long as a hash. -/
theorem get_pubkey_hash_accepted (standard : WalletCrates.StandardBase58) {bytes : List UInt8}
    (accepted : validateAddress (base58check bytes) = .ok ()) :
    (∃ version pubkeyHash, bytes = version :: pubkeyHash.val ∧
      getPubkeyHashFromAddress (base58check bytes) = .ok pubkeyHash) ∨
    bytes.length ≠ 21 ∧ getPubkeyHashFromAddress (base58check bytes) = Outcome.panic := by
  have stop : (checkedLengthSub (bytes ++ addressChecksum bytes).length 4 : Outcome String Nat) =
      .ok bytes.length := by
    simp [checkedLengthSub, address_checksum_length]
  rw [getPubkeyHashFromAddress, accepted, Outcome.bind_ok, standard.decode_base58check, Outcome.ofResult,
    Outcome.bind_ok, stop, Outcome.bind_ok]
  rcases bytes with _ | ⟨version, hash⟩
  · exact .inr ⟨by simp, by rw [checkedSlice, if_neg (by simp)]; rfl⟩
  have cut : (checkedSlice (version :: hash ++ addressChecksum (version :: hash)) 1
      (version :: hash).length : Outcome String (List UInt8)) = .ok hash :=
    checked_slice_middle [version] hash _ rfl (by simp [Nat.add_comm])
  rw [cut, Outcome.bind_ok, copyArray]
  by_cases fits : hash.length = 20
  · rw [dif_pos fits]
    exact .inl ⟨version, ⟨hash, fits⟩, rfl, rfl⟩
  · rw [dif_neg fits]
    exact .inr ⟨by simpa using fits, rfl⟩

theorem generate_address_p2pkh_script (standard : WalletCrates.StandardBase58) (pubkeyHash : U8Array 20) :
    Pubkey.generateAddress ⟨p2pkhScript pubkeyHash⟩ = .ok (testnetAddress pubkeyHash) := by
  have length : (p2pkhScript pubkeyHash).length = 25 := by simp [p2pkhScript]
  have first : (Outcome.index (p2pkhScript pubkeyHash) 0 : Outcome String UInt8) = .ok opDup := rfl
  have middle : slice (p2pkhScript pubkeyHash) 3 23 = pubkeyHash.val := by
    simpa [p2pkhScript] using slice_middle [opDup, opHash160, 20] pubkeyHash.val [opEqualverify, opChecksig]
  have notWitness : opDup ≠ 0x00 := by decide
  have long : ¬(p2pkhScript pubkeyHash).length ≤ 3 := by omega
  rw [Pubkey.generateAddress, if_neg long, first, Outcome.bind_ok, if_neg notWitness, if_pos rfl,
    length, if_neg (by decide), middle, Outcome.bind_ok]
  exact congrArg Except.ok (standard.encode _)

/-- An accepted address is paid exactly when it has the testnet version byte, and is no longer than
that and a hash. -/
theorem pays_accepted_address_iff (standard : WalletCrates.StandardBase58) {address : String}
    (accepted : validateAddress address = .ok ()) :
    (∃ script, generatePubkeyScript address = .ok script ∧
        Pubkey.generateAddress ⟨script⟩ = .ok address) ↔
      ∃ bytes, Base58.decode address = some bytes ∧ bytes.length = 25 ∧ bytes.head? = some 0x6f := by
  obtain ⟨_, bytes, rfl⟩ := (validate_address_iff standard).mp accepted
  have decoded : Base58.decode (base58check bytes) = some (bytes ++ addressChecksum bytes) := Base58.decode_encode _
  simp only [decoded, Option.some.injEq, exists_eq_left', List.length_append, address_checksum_length]
  rcases get_pubkey_hash_accepted standard accepted with ⟨version, pubkeyHash, rfl, found⟩ | ⟨longer, panics⟩
  · have made : generatePubkeyScript (base58check (version :: pubkeyHash.val)) =
        .ok (p2pkhScript pubkeyHash) := by
      rw [generatePubkeyScript, found]
      rfl
    rw [made]
    simp only [Except.ok.injEq, exists_eq_left', generate_address_p2pkh_script standard]
    have paid : testnetAddress pubkeyHash = base58check (version :: pubkeyHash.val) ↔ version = 0x6f := by
      rw [testnet_address_eq, base58check_injective.eq_iff, List.cons.injEq, eq_comm, and_iff_left rfl]
    rw [paid]
    simp
  · have stops : generatePubkeyScript (base58check bytes) = Outcome.panic := by
      rw [generatePubkeyScript, panics]
      rfl
    rw [stops]
    exact iff_of_false (by simp [Outcome.panic]) fun fits => longer (by omega)

theorem len_base58check {version : UInt8} {bytes : List UInt8} {n k : Nat} (length : bytes.length + 4 = n)
    (nonzero : version ≠ 0) (low : 58 ^ k ≤ version.toNat * 256 ^ n)
    (high : (version.toNat + 1) * 256 ^ n ≤ 58 ^ (k + 1)) :
    Str.len (base58check (version :: bytes)).toList = k + 1 := by
  rw [base58check, List.cons_append]
  refine Base58.len_encode_version ?_ nonzero low high
  rw [List.length_append, address_checksum_length, length]

/-- An encoded key is cut out between the version byte and the last bytes, of which there are four,
or five where the text says that the key is compressed. -/
theorem decode_wif_base58check (standard : WalletCrates.StandardBase58) {version : UInt8} (key : U8Array 32)
    (mark : List UInt8) (short : mark.length ≤ 1)
    (length : Str.len (base58check (version :: key.val ++ mark)).toList = 51 + mark.length) :
    decodeWifPrivateKey (base58check (version :: key.val ++ mark)) = .ok key := by
  have last : (if 51 + mark.length = 51 then 4 else 5) = mark.length + 4 := by
    by_cases plain : mark.length = 0
    · rw [plain, if_pos rfl]
    · rw [if_neg (by omega)]
      omega
  have total : (version :: key.val ++ mark ++ addressChecksum (version :: key.val ++ mark)).length =
      33 + (mark.length + 4) := by
    simp [address_checksum_length]
    omega
  have stop : (checkedLengthSub (version :: key.val ++ mark ++
      addressChecksum (version :: key.val ++ mark)).length (mark.length + 4) : Outcome String Nat) = .ok 33 := by
    rw [total, checkedLengthSub, if_pos (Nat.le_add_left _ _), Nat.add_sub_cancel]
  have cut : (checkedSlice (version :: key.val ++ mark ++ addressChecksum (version :: key.val ++ mark)) 1 33 :
      Outcome String (List UInt8)) = .ok key.val := by
    rw [List.append_assoc]
    exact checked_slice_middle [version] key.val _ rfl (by simp)
  rw [decodeWifPrivateKey, length, if_neg (by omega), standard.decode_base58check, Outcome.ofResult,
    Outcome.bind_ok, last, stop, Outcome.bind_ok, cut, Outcome.bind_ok, if_neg (by simp), copyArray,
    dif_pos key.property]

/-- Both texts of a key are read back, and make an account with the address of the key. -/
theorem key_import (standard : WalletCrates.StandardBase58) {key : U8Array 32} {publicKey : U8Array 33}
    (valid : WalletCrates.publicKey key = .ok publicKey) :
    let address := testnetAddress (hash160 publicKey.val)
    generateAddress key = .ok address ∧ address.length = 34 ∧ validateAddress address = .ok () ∧
      getPubkeyHashFromAddress address = .ok (hash160 publicKey.val) ∧
      ∀ wif ∈ [base58check (0xef :: key.val), base58check (0xef :: key.val ++ [0x01])],
        decodeWifPrivateKey wif = .ok key ∧
          SpendingAccount.new wif address = .ok ⟨⟨address, [], [], []⟩, wif⟩ := by
  intro address
  have generated : generateAddress key = .ok address := by
    rw [generateAddress, valid, Outcome.ofResult, Outcome.bind_ok]
    exact congrArg Except.ok (standard.encode _)
  have length : Str.len address.toList = 34 := len_encode_testnet (by simp [address_checksum_length])
  have accepted : validateAddress address = .ok () := (validate_address_iff standard).mpr ⟨length, _, rfl⟩
  have ascii : Str.len address.toList = address.length := Str.len_of_ascii (Base58.encode_ascii _)
  refine ⟨generated, ascii.symm.trans length, accepted, ?_, fun wif member => ?_⟩
  · rcases get_pubkey_hash_accepted standard accepted with ⟨version, pubkeyHash, same, found⟩ | ⟨longer, _⟩
    · rw [Subtype.ext (List.cons.inj same).2]
      exact found
    · exact absurd (by simp) longer
  have decoded : decodeWifPrivateKey wif = .ok key := by
    rcases List.mem_pair.mp member with rfl | rfl
    · have length : Str.len (base58check (0xef :: key.val)).toList = 51 :=
        len_base58check (n := 36) (by simp) (by decide) (by decide) (by decide)
      simpa using decode_wif_base58check standard key [] (by simp) (by simpa using length)
    · have length : Str.len (base58check (0xef :: (key.val ++ [0x01]))).toList = 52 :=
        len_base58check (n := 37) (by simp) (by decide) (by decide) (by decide)
      exact decode_wif_base58check standard key [0x01] (by simp) length
  refine ⟨decoded, ?_⟩
  rw [SpendingAccount.new, decoded, Outcome.bind_ok, validateAddressPrivateKey, generated, Outcome.bind_ok, if_pos rfl]
  rfl

end Addresses

namespace OneKey

theorem crates_standard_base58 : @WalletCrates.StandardBase58 OneKey.crates := by
  refine @WalletCrates.StandardBase58.mk OneKey.crates (fun _ => rfl) fun text bytes => ?_
  rcases read : Base58.decode text with _ | decoded
  · simp [WalletCrates.bs58Decode, read]
  · simp [WalletCrates.bs58Decode, read]

end OneKey

/-- The address of a test, which has the testnet version byte. -/
theorem pays_accepted_address_receiver :
    let _ := OneKey.crates
    ∃ script, generatePubkeyScript OneKey.receiver = .ok script ∧
      Pubkey.generateAddress ⟨script⟩ = .ok OneKey.receiver := by
  have accepted : @validateAddress OneKey.crates OneKey.receiver = .ok () := by decide +kernel
  apply (@pays_accepted_address_iff OneKey.crates OneKey.crates_standard_base58 _ accepted).mpr
  exact ⟨0x6f :: OneKey.receiverHash.val ++ [221, 117, 13, 160], by decide +kernel, rfl, rfl⟩

/-- The mainnet address of the same hash is accepted and the testnet address paid; where a hash is
followed by one byte too many, the address is accepted and paying it panics. -/
theorem pays_other_than_accepted :
    let _ := OneKey.crates
    (∃ script, validateAddress "1AUzofU2hVhSZLAbhkfNWfgCfPmJJ4xj9y" = .ok () ∧
      generatePubkeyScript "1AUzofU2hVhSZLAbhkfNWfgCfPmJJ4xj9y" = .ok script ∧
      Pubkey.generateAddress ⟨script⟩ = .ok OneKey.receiver ∧
      OneKey.receiver ≠ "1AUzofU2hVhSZLAbhkfNWfgCfPmJJ4xj9y") ∧
    validateAddress "1ZpbnmmKQgAKNmJgjAzgznwzHu2F3nMnEC" = .ok () ∧
      generatePubkeyScript "1ZpbnmmKQgAKNmJgjAzgznwzHu2F3nMnEC" = Outcome.panic := by
  intro _
  refine ⟨⟨p2pkhScript OneKey.receiverHash, ?_, ?_, ?_, by decide⟩, ?_, ?_⟩
  · decide +kernel
  · decide +kernel
  · decide +kernel
  · decide +kernel
  · decide +kernel

/-- The key, both its texts and the address of the tests. -/
theorem key_import_test :
    let _ := OneKey.crates
    generateAddress OneKey.privateKey = .ok OneKey.address ∧ OneKey.address.length = 34 ∧
      validateAddress OneKey.address = .ok () ∧
      getPubkeyHashFromAddress OneKey.address = .ok OneKey.pubkeyHash ∧
      ∀ wif ∈ ["91dkDNCCaMp2f91sVQRGgdZRw1QY4aptaeZ4vxEvuG5PvZ9hftJ",
          "cMoBjaYS6EraKLNqrNN8DvN93Nnt6pJNfWkYM8pUufYQB5EVZ7SR"],
        decodeWifPrivateKey wif = .ok OneKey.privateKey ∧
          SpendingAccount.new wif OneKey.address = .ok ⟨⟨OneKey.address, [], [], []⟩, wif⟩ := by
  intro _
  have address : testnetAddress OneKey.pubkeyHash = OneKey.address := by decide +kernel
  have plain : base58check (0xef :: OneKey.privateKey.val) =
      "91dkDNCCaMp2f91sVQRGgdZRw1QY4aptaeZ4vxEvuG5PvZ9hftJ" := by
    decide +kernel
  have compressed : base58check (0xef :: OneKey.privateKey.val ++ [0x01]) =
      "cMoBjaYS6EraKLNqrNN8DvN93Nnt6pJNfWkYM8pUufYQB5EVZ7SR" := by
    decide +kernel
  rw [← address, ← plain, ← compressed]
  exact @key_import OneKey.crates OneKey.crates_standard_base58 _ OneKey.publicKey (if_pos rfl)

end BitcoinNode
