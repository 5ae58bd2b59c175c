import Mathlib.Data.List.Lex
import Mathlib.Order.Defs.LinearOrder
import Mathlib.Order.Basic
import Urma.Core.Bytes

/-!
# Socket addresses

`std::net::SocketAddr`, and `urma_runtime::p2p::addr`: which addresses gossip may bring in.
-/

namespace Urma.P2p

/-- `IpAddr`, by its octets. -/
inductive IpAddr where
  | v4 (octets : Vector UInt8 4)
  | v6 (octets : Vector UInt8 16)
  deriving DecidableEq

/-- `SocketAddr`. -/
inductive SocketAddr where
  | v4 (octets : Vector UInt8 4) (port : UInt16)
  | v6 (octets : Vector UInt8 16) (port : UInt16) (flowinfo scopeId : UInt32)

/-- `SocketAddr::ip`. -/
def SocketAddr.ip : SocketAddr → IpAddr
  | .v4 octets _ => .v4 octets
  | .v6 octets _ _ _ => .v6 octets

/-- `SocketAddr::port`. -/
def SocketAddr.port : SocketAddr → UInt16
  | .v4 _ port => port
  | .v6 _ port _ _ => port

/-- `SocketAddr::is_ipv6`. -/
def SocketAddr.isIpv6 : SocketAddr → Bool
  | .v4 _ _ => false
  | .v6 _ _ _ _ => true

/-! ## Order -/

/-- What addresses are compared by: the version, the octets and the numbers after them. -/
def SocketAddr.key : SocketAddr → List ℕ
  | .v4 octets port => 0 :: (octets.toList.map UInt8.toNat ++ [port.toNat])
  | .v6 octets port flowinfo scopeId =>
      1 :: (octets.toList.map UInt8.toNat ++ [port.toNat, flowinfo.toNat, scopeId.toNat])

theorem octets_inj {n : ℕ} {octets other : Vector UInt8 n} {rest rest' : List ℕ}
    (h : octets.toList.map UInt8.toNat ++ rest = other.toList.map UInt8.toNat ++ rest') :
    octets = other ∧ rest = rest' := by
  have hlength :
      (octets.toList.map UInt8.toNat).length = (other.toList.map UInt8.toNat).length := by
    rw [List.length_map, List.length_map, Vector.length_toList, Vector.length_toList]
  obtain ⟨hmap, hrest⟩ := List.append_inj h hlength
  refine ⟨Vector.toList_inj.mp ?_, hrest⟩
  exact List.map_injective_iff.mpr (fun _ _ heq => UInt8.toNat_inj.mp heq) hmap

theorem SocketAddr.key_injective : Function.Injective SocketAddr.key := by
  intro address other h
  cases address with
  | v4 octets port =>
      cases other with
      | v4 octets' port' =>
          obtain ⟨hoctets, hrest⟩ := octets_inj (List.cons.inj h).2
          rw [hoctets, UInt16.toNat_inj.mp (List.cons.inj hrest).1]
      | v6 octets' port' flowinfo' scopeId' => exact absurd (List.cons.inj h).1 (by decide)
  | v6 octets port flowinfo scopeId =>
      cases other with
      | v4 octets' port' => exact absurd (List.cons.inj h).1 (by decide)
      | v6 octets' port' flowinfo' scopeId' =>
          obtain ⟨hoctets, hrest⟩ := octets_inj (List.cons.inj h).2
          simp only [List.cons.injEq, and_true] at hrest
          rw [hoctets, UInt16.toNat_inj.mp hrest.1, UInt32.toNat_inj.mp hrest.2.1,
            UInt32.toNat_inj.mp hrest.2.2]

/-- `Ord` of addresses. -/
instance : LinearOrder SocketAddr :=
  LinearOrder.lift' SocketAddr.key SocketAddr.key_injective

/-! ## Routable addresses -/

/-- `routable_v4`, with the predicates of `Ipv4Addr` that it asks. -/
def routableV4 (a b c d : UInt8) : Bool :=
  !((a = 0 && b = 0 && c = 0 && d = 0) ||
    a = 127 ||
    (a = 10 || a = 172 && b &&& 0xf0 = 16 || a = 192 && b = 168) ||
    (a = 169 && b = 254) ||
    (a = 255 && b = 255 && c = 255 && d = 255) ||
    (a = 192 && b = 0 && c = 2 || a = 198 && b = 51 && c = 100 || a = 203 && b = 0 && c = 113) ||
    (a &&& 0xf0 = 224) ||
    a = 0 ||
    240 ≤ a ||
    (a = 100 && 64 ≤ b && b < 128) ||
    (a = 198 && b &&& 0xfe = 18))

/-- `Ipv6Addr::to_ipv4_mapped`: the octets after the mark. -/
def toIpv4Mapped (octets : Vector UInt8 16) : Option (List UInt8) :=
  if octets.toList.take 12 = List.replicate 10 0 ++ [0xff, 0xff] then some (octets.toList.drop 12)
  else none

/-- `routable_native_v6`. -/
def routableNativeV6 (octets : Vector UInt8 16) : Bool :=
  !(octets.toList = List.replicate 16 0 ||
    octets.toList = List.replicate 15 0 ++ [1] ||
    octets[0] = 0xff ||
    octets[0] &&& 0xfe = 0xfc ||
    (octets[0] = 0xfe && octets[1] &&& 0xc0 = 0x80) ||
    (octets[0] = 0x20 && octets[1] = 0x01 && octets[2] = 0x0d && octets[3] = 0xb8))

/-- `routable_v6`. -/
def routableV6 (octets : Vector UInt8 16) : Bool :=
  match toIpv4Mapped octets with
  | some [a, b, c, d] => routableV4 a b c d
  | some _ => false
  | none => routableNativeV6 octets

/-- `routable`. -/
def routable (address : SocketAddr) : Bool :=
  address.port ≠ 0 &&
    match address.ip with
    | .v4 octets => routableV4 octets[0] octets[1] octets[2] octets[3]
    | .v6 octets => routableV6 octets

end Urma.P2p
