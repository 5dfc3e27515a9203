import Bqti.Core.NetAddr
import Bqti.Torrent.Metainfo
import Mathlib.Data.String.Basic

/-!
# Bootstrap addresses

A bootstrap node of a torrent is a socket address or a destination of I2P. A saved torrent holds
the host as text and the port, and a loaded one puts a colon between them and parses that. An
address of the sixth version is written there without its brackets, and is lost.
-/

namespace Bqti.Torrent

open Bqti.Core.Net (SocketAddr parseSocketAddr decimal)

/-- The address of a bootstrap node. -/
inductive TorrentAddr
  | ip (addr : SocketAddr)
  | i2p (dest : String)
  deriving DecidableEq, Repr

namespace TorrentAddr

/-- A name below `.i2p`, or more than a hundred bytes without a colon. -/
def isI2p (s : String) : Bool :=
  ".i2p".toList.isSuffixOf s.toList || (decide (100 < s.utf8ByteSize) && !s.toList.contains ':')

/-- Read an address: an I2P destination as it is, and anything else as a socket address. -/
def fromStr (s : String) : Except TorrentError TorrentAddr :=
  if isI2p s then .ok (.i2p s)
  else
    match parseSocketAddr s.toList with
    | some socket => .ok (.ip socket)
    | none => .error (.failed ("failed to parse address: " ++ s))

/-- The address of a host and a port; the port of an I2P destination is dropped. -/
def fromRawParts (host : String) (port : UInt16) : Except TorrentError TorrentAddr :=
  if isI2p host then .ok (.i2p host)
  else fromStr (host ++ ":" ++ String.ofList (decimal port.toNat))

/-- The host and the port of an address; an I2P destination has port zero. -/
def toRawParts : TorrentAddr → String × UInt16
  | .ip addr => (String.ofList addr.displayIp, addr.port)
  | .i2p dest => (dest, 0)

/-- An address as it is shown. -/
def display : TorrentAddr → String
  | .ip addr => String.ofList addr.display
  | .i2p dest => dest

end TorrentAddr

/-- The nodes of a loaded torrent; what does not parse is left out. -/
def dhtNodes (nodes : Option (List (String × UInt16))) : Option (List TorrentAddr) :=
  nodes.map fun nodes => nodes.filterMap fun node =>
    (TorrentAddr.fromRawParts node.1 node.2).toOption

/-- The nodes of a saved torrent. -/
def savedNodes (nodes : Option (List TorrentAddr)) : Option (List (String × UInt16)) :=
  nodes.map fun nodes => nodes.map TorrentAddr.toRawParts

/-! ## Classification -/

namespace TorrentAddr

/-- The texts of socket addresses take one byte for each character. -/
theorem utf8ByteSize_addrChars {text : List Char} (h : ∀ c ∈ text, c ∈ Core.Net.addrChars) :
    (String.ofList text).utf8ByteSize = text.length := by
  have hsize : Core.Net.addrChars.all (·.utf8Size = 1) := by decide
  rw [String.utf8ByteSize_ofList]
  induction text with
  | nil => rfl
  | cons c text ih =>
    obtain ⟨hc, htext⟩ := List.forall_mem_cons.mp h
    rw [String.utf8Len_cons, ih htext, of_decide_eq_true (List.all_eq_true.mp hsize c hc),
      List.length_cons]

/-- They are no destinations of I2P. -/
theorem isI2p_addrChars {text : List Char} (h : ∀ c ∈ text, c ∈ Core.Net.addrChars)
    (hshort : text.length ≤ 100 ∨ ':' ∈ text) : isI2p (String.ofList text) = false := by
  have hsuffix : ".i2p".toList.isSuffixOf (String.ofList text).toList = false := by
    rw [Bool.eq_false_iff, ne_eq, List.isSuffixOf_iff_suffix]
    intro hsuffix
    have hp : 'p' ∈ (String.ofList text).toList := hsuffix.subset (by decide)
    exact absurd (h 'p' (by simpa using hp)) (by decide)
  have hlong : ¬ (100 < text.length ∧ ':' ∉ text) := by
    rintro ⟨hlong, hcolon⟩
    exact hshort.elim (by omega) hcolon
  rw [isI2p, hsuffix, Bool.false_or, utf8ByteSize_addrChars h]
  simpa using hlong

/-- What is accepted is a destination or the address that is parsed. -/
theorem fromStr_eq_ok_iff (s : String) (addr : TorrentAddr) :
    fromStr s = .ok addr ↔
      isI2p s = true ∧ addr = .i2p s ∨
      isI2p s = false ∧ ∃ socket, parseSocketAddr s.toList = some socket ∧ addr = .ip socket := by
  rw [fromStr]
  cases hi2p : isI2p s with
  | true => simp [eq_comm]
  | false => cases hparse : parseSocketAddr s.toList <;> simp [eq_comm]

/-- A destination is kept as it is. -/
theorem fromRawParts_i2p {dest : String} (h : isI2p dest = true) :
    fromRawParts (toRawParts (.i2p dest)).1 (toRawParts (.i2p dest)).2 = .ok (.i2p dest) := by
  rw [toRawParts, fromRawParts, if_pos h]

/-- The host and the port make the text of an address of the fourth version again. -/
theorem fromRawParts_v4 (addr : Core.Net.SocketAddrV4) :
    fromRawParts (toRawParts (.ip (.v4 addr))).1 (toRawParts (.ip (.v4 addr))).2 =
      .ok (.ip (.v4 addr)) := by
  have hhost : isI2p (String.ofList addr.ip.display) = false :=
    isI2p_addrChars (fun c hc => Core.Net.Ipv4Addr.mem_addrChars hc)
      (.inl (by have hlen := addr.ip.length_display; omega))
  have htext : String.ofList addr.ip.display ++ ":" ++ String.ofList (decimal addr.port.toNat) =
      String.ofList (SocketAddr.v4 addr).display := by
    rw [SocketAddr.display, String.append_assoc, List.append_cons, String.ofList_append,
      String.ofList_append, String.append_assoc]
  have hsocket : isI2p (String.ofList (SocketAddr.v4 addr).display) = false :=
    isI2p_addrChars (fun c hc => SocketAddr.mem_addrChars hc)
      (.inr (by simp [SocketAddr.display]))
  rw [toRawParts, SocketAddr.displayIp, SocketAddr.port, fromRawParts, hhost, if_neg (by simp),
    htext, fromStr_eq_ok_iff]
  exact .inr ⟨hsocket, _, by rw [String.toList_ofList, Core.Net.parseSocketAddr_v4], rfl⟩

/-- An address of the sixth version is not what its host and its port make. -/
theorem fromRawParts_v6 (addr : Core.Net.SocketAddrV6) :
    fromRawParts (toRawParts (.ip (.v6 addr))).1 (toRawParts (.ip (.v6 addr))).2 ≠
      .ok (.ip (.v6 addr)) := by
  have hparse := Core.Net.parseSocketAddr_v6 addr
  have htext : (String.ofList (SocketAddr.v6 addr).displayIp ++ ":" ++
      String.ofList (decimal addr.port.toNat)).toList =
        (SocketAddr.v6 addr).displayIp ++ ':' :: decimal addr.port.toNat := by
    simp only [String.toList_append, String.toList_ofList, List.append_assoc]
    rfl
  rw [toRawParts, SocketAddr.port, fromRawParts]
  split
  · simp
  · rw [ne_eq, fromStr_eq_ok_iff, htext, hparse]
    simp

/-- The text is a destination of I2P or does not begin with a bracket. -/
def Kept (s : String) : Prop := isI2p s = true ∨ s.toList.head? ≠ some '['

instance (s : String) : Decidable (Kept s) := inferInstanceAs (Decidable (_ ∨ _))

/-- An address is read back from its parts exactly if it is kept. -/
theorem fromRawParts_toRawParts_iff {s : String} {addr : TorrentAddr} (h : fromStr s = .ok addr) :
    fromRawParts addr.toRawParts.1 addr.toRawParts.2 = .ok addr ↔ Kept s := by
  rcases (fromStr_eq_ok_iff s addr).mp h with ⟨hi2p, rfl⟩ | ⟨hi2p, socket, hsocket, rfl⟩
  · exact iff_of_true (fromRawParts_i2p hi2p) (.inl hi2p)
  · have hhead := Core.Net.head_of_parseSocketAddr hsocket
    cases socket with
    | v4 addr =>
      have hkept : s.toList.head? ≠ some '[' := fun hbracket => by
        simpa [SocketAddr.isIpv6] using hhead.mp hbracket
      exact iff_of_true (fromRawParts_v4 addr) (.inr hkept)
    | v6 addr =>
      have hlost : ¬ Kept s := by
        rintro (hkept | hkept)
        · exact absurd hi2p (by simp [hkept])
        · exact hkept (hhead.mpr rfl)
      exact iff_of_false (fromRawParts_v6 addr) hlost

end TorrentAddr

/-! ## Saving and loading -/

/-- Nothing is left out or changed exactly if everything is kept as it is. -/
theorem filterMap_eq_self_iff {α : Type} (f : α → Option α) (l : List α) :
    l.filterMap f = l ↔ ∀ x ∈ l, f x = some x := by
  constructor
  · induction l with
    | nil => simp
    | cons x l ih =>
      intro h
      cases hx : f x with
      | none =>
        have hlen := List.length_filterMap_le f l
        rw [List.filterMap_cons_none hx] at h
        rw [h, List.length_cons] at hlen
        omega
      | some y =>
        rw [List.filterMap_cons_some hx] at h
        obtain ⟨hy, htail⟩ := List.cons.inj h
        exact List.forall_mem_cons.mpr ⟨hy ▸ hx, ih htail⟩
  · intro h
    rw [List.filterMap_congr h, List.filterMap_some]

/-- The nodes are read back exactly if all their texts are kept. -/
theorem dhtNodes_savedNodes_iff {texts : List String} {addrs : List TorrentAddr}
    (h : texts.map TorrentAddr.fromStr = addrs.map .ok) :
    dhtNodes (savedNodes (some addrs)) = some addrs ↔ ∀ s ∈ texts, TorrentAddr.Kept s := by
  have hoption : ∀ addr : TorrentAddr, ∀ read : Except TorrentError TorrentAddr,
      read.toOption = some addr ↔ read = .ok addr := by
    intro addr read
    cases read <;> simp [Except.toOption]
  rw [savedNodes, dhtNodes, Option.map_some, Option.map_some, Option.some.injEq,
    List.filterMap_map, filterMap_eq_self_iff]
  simp only [Function.comp_apply, hoption]
  constructor
  · intro hkept s hs
    have hmem : TorrentAddr.fromStr s ∈ addrs.map .ok := h ▸ List.mem_map_of_mem hs
    obtain ⟨addr, haddr, hread⟩ := List.mem_map.mp hmem
    exact (TorrentAddr.fromRawParts_toRawParts_iff hread.symm).mp (hkept addr haddr)
  · intro hkept addr haddr
    have hmem : .ok addr ∈ texts.map TorrentAddr.fromStr := h ▸ List.mem_map_of_mem haddr
    obtain ⟨s, hs, hread⟩ := List.mem_map.mp hmem
    exact (TorrentAddr.fromRawParts_toRawParts_iff hread).mpr (hkept s hs)

/-- Of some texts, one that is accepted survives saving exactly if it is a destination of I2P or
does not begin with a bracket; if all are accepted, a torrent keeps all its nodes exactly if that
holds of each. -/
theorem bootstrap_kept_iff (texts : List String) :
    (∀ s ∈ texts, ∀ addr, TorrentAddr.fromStr s = .ok addr →
      (TorrentAddr.fromRawParts addr.toRawParts.1 addr.toRawParts.2 = .ok addr ↔
        TorrentAddr.Kept s)) ∧
    ∀ addrs : List TorrentAddr, texts.map TorrentAddr.fromStr = addrs.map .ok →
      (dhtNodes (savedNodes (some addrs)) = some addrs ↔ ∀ s ∈ texts, TorrentAddr.Kept s) :=
  ⟨fun _ _ _ h => TorrentAddr.fromRawParts_toRawParts_iff h, fun _ h => dhtNodes_savedNodes_iff h⟩

/-- The loopback address of the sixth version, at a port. -/
def loopbackV6 : TorrentAddr := .ip (.v6 ⟨⟨#v[0, 0, 0, 0, 0, 0, 0, 1]⟩, 6881, 0, 0⟩)

/-- A mixed list is kept, without the address of the sixth version. -/
theorem bootstrap_kept_sample :
    TorrentAddr.fromRawParts "10.0.0.1" 6881 = .ok (.ip (.v4 ⟨⟨10, 0, 0, 1⟩, 6881⟩)) ∧
    dhtNodes (savedNodes (some [.ip (.v4 ⟨⟨10, 0, 0, 1⟩, 6881⟩), .i2p "node.i2p"])) =
      some [.ip (.v4 ⟨⟨10, 0, 0, 1⟩, 6881⟩), .i2p "node.i2p"] :=
  ⟨((bootstrap_kept_iff ["10.0.0.1:6881"]).1 _ List.mem_cons_self
      (.ip (.v4 ⟨⟨10, 0, 0, 1⟩, 6881⟩)) (by decide +kernel)).mpr (by decide +kernel),
    ((bootstrap_kept_iff ["10.0.0.1:6881", "node.i2p"]).2 _ (by decide +kernel)).mpr
      (by decide +kernel)⟩

/-- The brackets are missing when the address is read again. -/
theorem bootstrap_v6_lost :
    TorrentAddr.fromStr "[::1]:6881" = .ok loopbackV6 ∧
    loopbackV6.toRawParts = ("::1", 6881) ∧
    TorrentAddr.fromRawParts "::1" 6881 = .error (.failed "failed to parse address: ::1:6881") ∧
    dhtNodes (savedNodes (some [loopbackV6])) = some [] := by
  decide +kernel

end Bqti.Torrent
