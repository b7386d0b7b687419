import GenericServer.BlockMemory
import GenericServer.ByteWords
import Mathlib.Algebra.Group.Nat.Defs

/-!
# Internet addresses

`InetAddress` of `src/net/InetAddress.h` and `InetAddress.cpp`, and the comparison and the hash of
`TCPConnection` in `src/net/TCPConnection.cpp`.
-/
namespace GenericServer.InetAddresses

open BlockMemory ByteWords

def AF_INET : ℕ := 2
def AF_INET6 : ℕ := 10

/-- The union of `sockaddr_in` and `sockaddr_in6` in the cells `[0, 28)`, of which the former has
the first 16. -/
structure InetAddress where
  mem : ℤ → UInt8

def sizeofSockaddrIn : ℕ := 16
def sizeofSockaddrIn6 : ℕ := 28
def sizeofUnsignedLong : ℕ := 8
def sizeofInt : ℕ := 4

/-- `htons`, in the order in which the bytes are stored. -/
def htons (port : ℤ) : List UInt8 := [UInt8.ofInt (port / 256), UInt8.ofInt port]

namespace InetAddress

def write (a : InetAddress) (offset : ℤ) (bytes : List UInt8) : InetAddress :=
  ⟨writeBlock a.mem offset bytes⟩

def clear (a : InetAddress) (size : ℕ) : InetAddress := a.write 0 (List.replicate size 0)

/-- `sin_family`, which is where `sin6_family` is. -/
def family (a : InetAddress) : ℕ := word (readBlock a.mem 0 2)

/-- `sin_port`, which is where `sin6_port` is. -/
def port (a : InetAddress) : ℕ := word (readBlock a.mem 2 2)

def sinAddr (a : InetAddress) : List UInt8 := readBlock a.mem 4 4

def sin6Addr (a : InetAddress) : List UInt8 := readBlock a.mem 8 16

def ofSockaddr (a addr : InetAddress) : InetAddress :=
  let a := a.clear sizeofSockaddrIn6
  if addr.family = AF_INET6 then a.write 0 (readBlock addr.mem 0 sizeofSockaddrIn6)
  else if addr.family = AF_INET then a.write 0 (readBlock addr.mem 0 sizeofSockaddrIn)
  else a

def ofPort (a : InetAddress) (port : ℤ) (ipv6 : Bool) : InetAddress :=
  if ipv6 then
    (((a.clear sizeofSockaddrIn6).write 0 [10, 0]).write 8 (List.replicate 16 0)).write 2 (htons port)
  else
    (((a.clear sizeofSockaddrIn).write 0 [2, 0]).write 4 (List.replicate 4 0)).write 2 (htons port)

/-- The result of `inet_pton` for a family and a text: the bytes of the address, if it is one. -/
abbrev InetPton := ℕ → List Char → Option (List UInt8)

def textToIP4 (inetPton : InetPton) (a : InetAddress) (ip : List Char) (port : ℤ) : InetAddress :=
  let a := ((a.clear sizeofSockaddrIn).write 0 [2, 0]).write 2 (htons port)
  match inetPton AF_INET ip with
  | some bytes => a.write 4 bytes
  | none => a

def textToIP6 (inetPton : InetPton) (a : InetAddress) (ip : List Char) (port : ℤ) : InetAddress :=
  let a := ((a.clear sizeofSockaddrIn6).write 0 [10, 0]).write 2 (htons port)
  match inetPton AF_INET6 ip with
  | some bytes => a.write 8 bytes
  | none => a

/-- `InetAddress(const std::string &, int, bool)`, which is `setAddr`. -/
def ofText (inetPton : InetPton) (a : InetAddress) (ip : List Char) (port : ℤ) (ipv6 : Bool) :
    InetAddress :=
  if ipv6 then textToIP6 inetPton a ip port else textToIP4 inetPton a ip port

/-- The values that the constructors build, in memory that may hold anything. -/
inductive Built (inetPton : InetPton) : InetAddress → Prop
  | ofSockaddr (a addr : InetAddress) : Built inetPton (a.ofSockaddr addr)
  | ofPort (a : InetAddress) (port : ℤ) (ipv6 : Bool) : Built inetPton (a.ofPort port ipv6)
  | ofText (a : InetAddress) (ip : List Char) (port : ℤ) (ipv6 : Bool) :
    Built inetPton (ofText inetPton a ip port ipv6)

/-- `operator==`. -/
def eq (a b : InetAddress) : Bool :=
  if a.family = AF_INET then
    a.family = b.family ∧ a.port = b.port ∧ word a.sinAddr = word b.sinAddr
  else a.family = b.family ∧ a.port = b.port ∧ memcmp a.sin6Addr b.sin6Addr ≠ 0

/-- The statement `h ^ std::hash<int>()(v);`, whose value is not used, nor is that of
`h + m_addr6.sin6_port;`. -/
def mix (h _v : ℕ) : ℕ := h

/-- The first byte of the address proper, and its length. -/
def addressProper (a : InetAddress) : ℤ × ℕ := if a.family = AF_INET then (4, 4) else (8, 16)

/-- Where `p[i]` is, for the `i` of the loop in `hash`. -/
def hashReads (a : InetAddress) : List ℤ :=
  (List.range (a.addressProper.2 / sizeofInt)).map fun i =>
    a.addressProper.1 + i * sizeofUnsignedLong

def hash (a : InetAddress) : ℕ :=
  a.hashReads.foldl (fun h p => mix h (word (readBlock a.mem p sizeofUnsignedLong))) 0xFFFFFFFF

def ip (a : InetAddress) : List UInt8 := readBlock a.mem a.addressProper.1 a.addressProper.2

def Same (a b : InetAddress) : Prop := a.family = b.family ∧ a.port = b.port ∧ a.ip = b.ip

def ReadsInside (a : InetAddress) : Prop :=
  ∀ p ∈ a.hashReads, 0 ≤ p ∧ p + sizeofUnsignedLong ≤ sizeofSockaddrIn6

end InetAddress

structure TCPConnection where
  mLocal : InetAddress
  mPeer : InetAddress

namespace TCPConnection

/-- `operator==`, which does not look at the other connection. -/
def eq (x _conn : TCPConnection) : Bool := x.mLocal.eq x.mPeer

def connectionHash (conn : TCPConnection) : ℕ := (conn.mLocal.hash + conn.mPeer.hash) % 2 ^ 64

def Same (x y : TCPConnection) : Prop := x.mLocal.Same y.mLocal ∧ x.mPeer.Same y.mPeer

end TCPConnection

/-- Equality and hash are those of proper keys, for two addresses and for two connections. -/
structure Keys (a b : InetAddress) (x y : TCPConnection) : Prop where
  address : a.eq b = true ↔ a.Same b
  addressHash : a.eq b = true → a.hash = b.hash
  inside : a.ReadsInside ∧ b.ReadsInside
  connection : x.eq y = true ↔ x.Same y
  connectionHash : x.eq y = true → x.connectionHash = y.connectionHash

/-- The local and the peer address of a connection agree in family and port, and in the address
itself if they are IPv4 addresses, else not. -/
def TCPConnection.Mirrored (x : TCPConnection) : Prop :=
  x.mLocal.family = x.mPeer.family ∧ x.mLocal.port = x.mPeer.port ∧
    (x.mLocal.ip = x.mPeer.ip ↔ x.mLocal.family = AF_INET)

variable {a b : InetAddress}

/-! ## Equality and hash -/

theorem hash_eq (a : InetAddress) : a.hash = 0xFFFFFFFF := by
  unfold InetAddress.hash
  induction a.hashReads with
  | nil => rfl
  | cons p ps ih => exact ih

/-- `hash` reads twice as many bytes as the address has, from its first one on. -/
theorem readsInside_iff (a : InetAddress) : a.ReadsInside ↔ a.family = AF_INET := by
  unfold InetAddress.ReadsInside InetAddress.hashReads InetAddress.addressProper
  split_ifs with h
  · exact iff_of_true (by decide) h
  · exact iff_of_false (by decide) h

theorem eq_iff (a b : InetAddress) : a.eq b = true ↔
    a.family = b.family ∧ a.port = b.port ∧ (a.ip = b.ip ↔ a.family = AF_INET) := by
  unfold InetAddress.eq
  split_ifs with h
  · rw [decide_eq_true_iff]
    refine and_congr_right fun hfamily => and_congr_right fun _ => ?_
    have hb : b.family = AF_INET := hfamily.symm.trans h
    rw [iff_true_right h, word_inj (by simp [InetAddress.sinAddr]), InetAddress.ip,
      InetAddress.addressProper, if_pos h, InetAddress.ip, InetAddress.addressProper, if_pos hb]
    rfl
  · rw [decide_eq_true_iff]
    refine and_congr_right fun hfamily => and_congr_right fun _ => ?_
    have hb : b.family ≠ AF_INET := hfamily ▸ h
    rw [iff_false_right h, Ne, memcmp_eq_zero (by simp [InetAddress.sin6Addr]), InetAddress.ip,
      InetAddress.addressProper, if_neg h, InetAddress.ip, InetAddress.addressProper, if_neg hb]
    rfl

/-- Equality and hash are those of keys exactly for IPv4 addresses, and for connections where the
two addresses of the one are alike just when the connections have the same addresses. -/
theorem keys_iff (a b : InetAddress) (x y : TCPConnection) : Keys a b x y ↔
    (a.family = AF_INET ∧ b.family = AF_INET) ∧ (x.Mirrored ↔ x.Same y) := by
  constructor
  · intro h
    refine ⟨h.inside.imp (readsInside_iff a).mp (readsInside_iff b).mp, ?_⟩
    exact (eq_iff x.mLocal x.mPeer).symm.trans h.connection
  · rintro ⟨⟨ha, hb⟩, hconn⟩
    refine ⟨?_, fun _ => by rw [hash_eq, hash_eq], ⟨(readsInside_iff a).mpr ha,
      (readsInside_iff b).mpr hb⟩, (eq_iff x.mLocal x.mPeer).trans hconn, fun _ => ?_⟩
    · rw [eq_iff, iff_true_right ha]
      rfl
    · unfold TCPConnection.connectionHash
      rw [hash_eq, hash_eq, hash_eq, hash_eq]

/-- The addresses of two IPv4 servers, and the connections between them seen from both ends. -/
theorem keys_iff_ipv4 :
    let a := InetAddress.ofPort ⟨fun _ => 0⟩ 80 false
    let b := InetAddress.ofPort ⟨fun _ => 0⟩ 81 false
    Keys a b ⟨a, b⟩ ⟨b, a⟩ := by
  intro a b
  have hports : a.port ≠ b.port := by decide
  refine (keys_iff a b ⟨a, b⟩ ⟨b, a⟩).mpr ⟨by decide, ?_⟩
  exact iff_of_false (fun h => hports h.2.1) fun h => hports h.1.2.1

/-- The IPv6 address of a server is not equal to itself. -/
theorem ipv6_differs_from_itself :
    let a := InetAddress.ofPort ⟨fun _ => 0⟩ 80 true
    InetAddress.Built (fun _ _ => none) a ∧ a.Same a ∧ a.eq a = false ∧ ¬ a.ReadsInside ∧
      ∀ x y, ¬ Keys a a x y := by
  intro a
  have hdiffers : a.eq a = false := by decide
  refine ⟨.ofPort ⟨fun _ => 0⟩ 80 true, ⟨rfl, rfl, rfl⟩, hdiffers, ?_, fun x y h => ?_⟩
  · rw [readsInside_iff]
    decide
  · rw [h.address.mpr ⟨rfl, rfl, rfl⟩] at hdiffers
    cases hdiffers

end GenericServer.InetAddresses
