/-
One dict of keywords for several packets (`core/inetpkt.pyx`).

The layers hand it down: an IP header that finds no pseudo header of its version there puts its
own in, and an ICMP error notes a quote, and both are there for the next packet.
-/
import Packets.Inet.Layer

namespace Packets.Inet

namespace Keywords

/-- `kwargs['ipv4_pheader'] = kwargs.get('ipv4_pheader', self.ipv4_pheader)` -/
def putIpv4 (k : Keywords) (own : Ip4Ph) : Keywords :=
  { k with ipv4Pheader := some (k.ipv4Pheader.getD own) }

/-- The same for IPv6. -/
def putIpv6 (k : Keywords) (own : Ip6Ph) : Keywords :=
  { k with ipv6Pheader := some (k.ipv6Pheader.getD own) }

/-- `kwargs['for_icmp'] = 1` -/
def putForIcmp (k : Keywords) : Keywords := { k with forIcmp := true }

end Keywords

namespace Layer

/-- The dict after `_write`. -/
def leaves (k : Keywords) : Layer → Keywords
  | ethernet _ payload => payload.leaves k
  | mpls _ payload => payload.leaves k
  | gre _ malformed payload =>
    match malformed with
    | some _ => k
    | none => payload.leaves k
  | ip h payload _ =>
    let k := k.putIpv4 ⟨h.src, h.dst, h.proto⟩
    if k.forIcmp then k else payload.leaves k
  | ip6 h payload _ =>
    let k := k.putIpv6 ⟨h.src, h.dst, h.upperProto⟩
    if k.forIcmp then k else payload.leaves k
  | udp _ payload _ => payload.leaves k
  | tcp _ payload => payload.leaves k
  | icmpError _ _ hdrPkt => hdrPkt.leaves k.putForIcmp
  | icmp6Error _ _ hdrPkt => hdrPkt.leaves k.putForIcmp
  | pkt | null _ | icmp _ _ | icmpUnknown _ | icmp6 _ _ | ospf _ | ospf3 _ => k

/-- `pkt2net` of packets in order, with one dict. -/
def serializeAll (k : Keywords) : List Layer → List Bytes × Keywords
  | [] => ([], k)
  | l :: rest =>
    let later := serializeAll (l.leaves k) rest
    (l.write k :: later.1, later.2)

/-- What a packet would put in the dict is there already, as far as the dict gets. -/
def LeavesAlone (k : Keywords) : Layer → Prop
  | ethernet _ payload => payload.LeavesAlone k
  | mpls _ payload => payload.LeavesAlone k
  | gre _ malformed payload => malformed = none → payload.LeavesAlone k
  | ip _ payload _ => k.ipv4Pheader.isSome ∧ (k.forIcmp = false → payload.LeavesAlone k)
  | ip6 _ payload _ => k.ipv6Pheader.isSome ∧ (k.forIcmp = false → payload.LeavesAlone k)
  | udp _ payload _ => payload.LeavesAlone k
  | tcp _ payload => payload.LeavesAlone k
  | icmpError _ _ hdrPkt => k.forIcmp = true ∧ hdrPkt.LeavesAlone k
  | icmp6Error _ _ hdrPkt => k.forIcmp = true ∧ hdrPkt.LeavesAlone k
  | pkt | null _ | icmp _ _ | icmpUnknown _ | icmp6 _ _ | ospf _ | ospf3 _ => True

end Layer

/-- What a dict has, a later one has too. -/
structure Keywords.Within (k k' : Keywords) : Prop where
  update : k'.update = k.update
  csum : k'.csum = k.csum
  forIcmp : k.forIcmp = true → k'.forIcmp = true
  ipv4Pheader : ∀ ph, k.ipv4Pheader = some ph → k'.ipv4Pheader = some ph
  ipv6Pheader : ∀ ph, k.ipv6Pheader = some ph → k'.ipv6Pheader = some ph

namespace Keywords

theorem Within.refl (k : Keywords) : k.Within k :=
  ⟨rfl, rfl, fun h => h, fun _ h => h, fun _ h => h⟩

theorem Within.trans {k k' k'' : Keywords} (h : k.Within k') (h' : k'.Within k'') :
    k.Within k'' where
  update := h'.update.trans h.update
  csum := h'.csum.trans h.csum
  forIcmp hquoted := h'.forIcmp (h.forIcmp hquoted)
  ipv4Pheader ph hph := h'.ipv4Pheader ph (h.ipv4Pheader ph hph)
  ipv6Pheader ph hph := h'.ipv6Pheader ph (h.ipv6Pheader ph hph)

theorem Within.antisymm {k k' : Keywords} (h : k.Within k') (h' : k'.Within k) : k' = k := by
  obtain ⟨update, csum, forIcmp, ipv4Pheader, ipv6Pheader⟩ := k
  obtain ⟨update', csum', forIcmp', ipv4Pheader', ipv6Pheader'⟩ := k'
  have hquoted : forIcmp' = forIcmp := Bool.eq_iff_iff.mpr ⟨h'.forIcmp, h.forIcmp⟩
  have hip : ipv4Pheader' = ipv4Pheader :=
    Option.ext fun ph => ⟨h'.ipv4Pheader ph, h.ipv4Pheader ph⟩
  have hip6 : ipv6Pheader' = ipv6Pheader :=
    Option.ext fun ph => ⟨h'.ipv6Pheader ph, h.ipv6Pheader ph⟩
  have hupdate : update' = update := h.update
  have hcsum : csum' = csum := h.csum
  rw [hquoted, hip, hip6, hupdate, hcsum]

theorem within_putIpv4 (k : Keywords) (own : Ip4Ph) : k.Within (k.putIpv4 own) :=
  ⟨rfl, rfl, fun h => h, fun ph h => by simp [putIpv4, h], fun _ h => h⟩

theorem within_putIpv6 (k : Keywords) (own : Ip6Ph) : k.Within (k.putIpv6 own) :=
  ⟨rfl, rfl, fun h => h, fun _ h => h, fun ph h => by simp [putIpv6, h]⟩

theorem within_putForIcmp (k : Keywords) : k.Within k.putForIcmp :=
  ⟨rfl, rfl, fun _ => rfl, fun _ h => h, fun _ h => h⟩

theorem putIpv4_eq_iff (k : Keywords) (own : Ip4Ph) : k.putIpv4 own = k ↔ k.ipv4Pheader.isSome := by
  obtain ⟨update, csum, forIcmp, ipv4Pheader, ipv6Pheader⟩ := k
  cases ipv4Pheader <;> simp [putIpv4]

theorem putIpv6_eq_iff (k : Keywords) (own : Ip6Ph) : k.putIpv6 own = k ↔ k.ipv6Pheader.isSome := by
  obtain ⟨update, csum, forIcmp, ipv4Pheader, ipv6Pheader⟩ := k
  cases ipv6Pheader <;> simp [putIpv6]

theorem putForIcmp_eq_iff (k : Keywords) : k.putForIcmp = k ↔ k.forIcmp = true := by
  obtain ⟨update, csum, forIcmp, ipv4Pheader, ipv6Pheader⟩ := k
  simp [putForIcmp, eq_comm]

end Keywords

namespace Layer

theorem within_leaves (k : Keywords) (l : Layer) : k.Within (l.leaves k) := by
  induction l generalizing k with
  | pkt => exact .refl k
  | null _ => exact .refl k
  | ethernet _ _ ih => exact ih k
  | mpls _ _ ih => exact ih k
  | gre _ malformed _ ih =>
    cases malformed with
    | some _ => exact .refl k
    | none => exact ih k
  | ip h _ _ ih =>
    have hown := k.within_putIpv4 ⟨h.src, h.dst, h.proto⟩
    rw [leaves]
    split
    · exact hown
    · exact hown.trans (ih _)
  | ip6 h _ _ ih =>
    have hown := k.within_putIpv6 ⟨h.src, h.dst, h.upperProto⟩
    rw [leaves]
    split
    · exact hown
    · exact hown.trans (ih _)
  | udp _ _ _ ih => exact ih k
  | tcp _ _ ih => exact ih k
  | icmp _ _ => exact .refl k
  | icmpError _ _ _ ih => exact k.within_putForIcmp.trans (ih _)
  | icmpUnknown _ => exact .refl k
  | icmp6 _ _ => exact .refl k
  | icmp6Error _ _ _ ih => exact k.within_putForIcmp.trans (ih _)
  | ospf _ => exact .refl k
  | ospf3 _ => exact .refl k

theorem within_serializeAll (k : Keywords) (ps : List Layer) : k.Within (serializeAll k ps).2 := by
  induction ps generalizing k with
  | nil => exact .refl k
  | cons l rest ih => exact (within_leaves k l).trans (ih _)

theorem leaves_eq_of_within {k k' : Keywords} (l : Layer) (h : k.Within k') :
    l.leaves k' = k ↔ k' = k ∧ l.leaves k = k := by
  constructor
  · intro hsame
    have hback := within_leaves k' l
    rw [hsame] at hback
    have hk := h.antisymm hback
    rw [hk] at hsame
    exact ⟨hk, hsame⟩
  · rintro ⟨rfl, hsame⟩
    exact hsame

theorem leaves_ip_eq_iff (k : Keywords) (h : IPHeader) (payload : Layer) (trailer : Bytes) :
    (ip h payload trailer).leaves k = k ↔
      k.ipv4Pheader.isSome ∧ (k.forIcmp = false → payload.leaves k = k) := by
  have hown := k.within_putIpv4 ⟨h.src, h.dst, h.proto⟩
  have hquoted : (k.putIpv4 ⟨h.src, h.dst, h.proto⟩).forIcmp = k.forIcmp := rfl
  rw [leaves, hquoted, ← k.putIpv4_eq_iff ⟨h.src, h.dst, h.proto⟩]
  cases k.forIcmp with
  | true => simp
  | false => simpa using leaves_eq_of_within payload hown

theorem leaves_ip6_eq_iff (k : Keywords) (h : IP6Header) (payload : Layer) (trailer : Bytes) :
    (ip6 h payload trailer).leaves k = k ↔
      k.ipv6Pheader.isSome ∧ (k.forIcmp = false → payload.leaves k = k) := by
  have hown := k.within_putIpv6 ⟨h.src, h.dst, h.upperProto⟩
  have hquoted : (k.putIpv6 ⟨h.src, h.dst, h.upperProto⟩).forIcmp = k.forIcmp := rfl
  rw [leaves, hquoted, ← k.putIpv6_eq_iff ⟨h.src, h.dst, h.upperProto⟩]
  cases k.forIcmp with
  | true => simp
  | false => simpa using leaves_eq_of_within payload hown

theorem leaves_quoted_eq_iff (k : Keywords) (hdrPkt : Layer) :
    hdrPkt.leaves k.putForIcmp = k ↔ k.forIcmp = true ∧ hdrPkt.leaves k = k := by
  rw [leaves_eq_of_within hdrPkt k.within_putForIcmp, k.putForIcmp_eq_iff]

theorem leaves_eq_iff (k : Keywords) (l : Layer) : l.leaves k = k ↔ l.LeavesAlone k := by
  induction l with
  | pkt => exact iff_of_true rfl trivial
  | null _ => exact iff_of_true rfl trivial
  | ethernet _ _ ih => exact ih
  | mpls _ _ ih => exact ih
  | gre _ malformed _ ih =>
    cases malformed with
    | some _ => exact iff_of_true rfl fun h => nomatch h
    | none => simpa [leaves, LeavesAlone] using ih
  | ip h payload trailer ih => rw [leaves_ip_eq_iff, ih, LeavesAlone]
  | ip6 h payload trailer ih => rw [leaves_ip6_eq_iff, ih, LeavesAlone]
  | udp _ _ _ ih => exact ih
  | tcp _ _ ih => exact ih
  | icmp _ _ => exact iff_of_true rfl trivial
  | icmpError _ _ hdrPkt ih => rw [leaves, leaves_quoted_eq_iff, ih, LeavesAlone]
  | icmpUnknown _ => exact iff_of_true rfl trivial
  | icmp6 _ _ => exact iff_of_true rfl trivial
  | icmp6Error _ _ hdrPkt ih => rw [leaves, leaves_quoted_eq_iff, ih, LeavesAlone]
  | ospf _ => exact iff_of_true rfl trivial
  | ospf3 _ => exact iff_of_true rfl trivial

/-- Packets serialized with one dict get the bytes each has with a copy of it, and leave it as
it was, exactly when every packet finds in it what it would put there. -/
theorem serializeAll_eq_iff (k : Keywords) (ps : List Layer) :
    serializeAll k ps = (ps.map (write k), k) ↔ ∀ l ∈ ps, l.LeavesAlone k := by
  induction ps with
  | nil => simp [serializeAll]
  | cons l rest ih =>
    rw [List.forall_mem_cons, ← leaves_eq_iff]
    constructor
    · intro hall
      obtain ⟨hbytes, hdict⟩ := Prod.mk.inj hall
      have hlater := within_serializeAll (l.leaves k) rest
      rw [hdict] at hlater
      have hsame : l.leaves k = k := (within_leaves k l).antisymm hlater
      rw [hsame] at hbytes hdict
      have hrest : serializeAll k rest = (rest.map (write k), k) :=
        Prod.ext (List.cons.inj hbytes).2 hdict
      exact ⟨hsame, ih.mp hrest⟩
    · rintro ⟨hsame, hrest⟩
      rw [serializeAll, hsame, ih.mpr hrest]
      rfl

/-- A UDP datagram to a host. -/
def datagramTo (dst : Bytes) : Layer :=
  ip ⟨0x45, 0, 28, 0, 0, 64, 17, 0, [10, 0, 0, 1], dst, []⟩ (udp ⟨53, 53, 8, 0⟩ (null []) []) []

/-- The second datagram is summed with the pseudo header of the first. -/
theorem not_serializeAll_eq :
    ¬∀ (k : Keywords) (ps : List Layer), serializeAll k ps = (ps.map (write k), k) := by
  intro h
  have hbytes := congrArg Prod.fst
    (h { update := true, csum := true } [datagramTo [10, 0, 0, 2], datagramTo [10, 0, 0, 3]])
  revert hbytes
  decide +kernel

end Layer

end Packets.Inet
