import Mathlib.Data.Nat.Notation

/-!
# Chains and their parameters

`urma_chain::observation::Chain` and the constants of `urma_chain::config` that the header rules
read. The network magic, ports and seeds are left out.
-/

namespace Urma

/-- `observation::Chain`. -/
inductive Chain where
  | bitcoinMainnet
  | bitcoinRegtest
  | bitcoinTestnet4
  | litecoinMainnet
  | litecoinTestnet
  deriving DecidableEq, Repr

namespace Chain

/-- `observation::PowFunction`. -/
inductive PowFunction where
  | sha256d
  | scrypt
  deriving DecidableEq, Repr

/-- `observation::ChainParams`. -/
structure ChainParams where
  pow : PowFunction
  powLimitBits : UInt32
  retargetInterval : ℕ
  retargetLookback : ℕ
  targetTimespan : ℕ
  targetSpacing : ℕ
  allowMinDifficulty : Bool
  retargets : Bool
  deriving DecidableEq, Repr

namespace Config

def litecoinMainnet : ChainParams where
  pow := .scrypt
  powLimitBits := 0x1e0fffff
  retargetInterval := 2016
  retargetLookback := 2016
  targetTimespan := 302400
  targetSpacing := 150
  allowMinDifficulty := false
  retargets := true

def litecoinTestnet : ChainParams where
  pow := .scrypt
  powLimitBits := 0x1e0fffff
  retargetInterval := 2016
  retargetLookback := 2016
  targetTimespan := 302400
  targetSpacing := 150
  allowMinDifficulty := true
  retargets := true

def bitcoinMainnet : ChainParams where
  pow := .sha256d
  powLimitBits := 0x1d00ffff
  retargetInterval := 2016
  retargetLookback := 2015
  targetTimespan := 1209600
  targetSpacing := 600
  allowMinDifficulty := false
  retargets := true

def bitcoinRegtest : ChainParams where
  pow := .sha256d
  powLimitBits := 0x207fffff
  retargetInterval := 2016
  retargetLookback := 2015
  targetTimespan := 1209600
  targetSpacing := 600
  allowMinDifficulty := true
  retargets := false

def bitcoinTestnet4 : ChainParams where
  pow := .sha256d
  powLimitBits := 0x1d00ffff
  retargetInterval := 2016
  retargetLookback := 2015
  targetTimespan := 1209600
  targetSpacing := 600
  allowMinDifficulty := true
  retargets := true

end Config

/-- `Chain::params`. -/
def params : Chain → ChainParams
  | bitcoinMainnet => Config.bitcoinMainnet
  | litecoinMainnet => Config.litecoinMainnet
  | litecoinTestnet => Config.litecoinTestnet
  | bitcoinRegtest => Config.bitcoinRegtest
  | bitcoinTestnet4 => Config.bitcoinTestnet4

end Chain

end Urma
