/-
The prefix-list decides like a scan of its lines (`policy/prefixlist.pyx`).

The descent keeps the lowest seq of the buckets it passes, so it ends with the line a scan in
the order of seqs meets first.
-/
import Packets.Policy.FiledList
import Packets.Rib.AddressText

namespace Packets

open Trie LinkedTree

namespace FiledList

/-- A node that covers the candidate offers an entry of its bucket: the first one whose
window admits the length. -/
structure Offers (trie : Trie (List PrefixListEntry)) (live : Finset NodeId) (addr : Bytes)
    (plen : Nat) (n : NodeId) (entry : PrefixListEntry) : Prop where
  live : n ∈ live
  covers : trie.Covers addr plen n
  real : (trie.cell n).isReal = true
  first : ((trie.cell n).value.getD []).find? (admits plen) = some entry

variable {trie : Trie (List PrefixListEntry)} {live : Finset NodeId} {addr : Bytes}
  {plen : Nat}

/-- The better of two is at least as low as either. -/
theorem better_spec (best : Option PrefixListEntry) (entry : PrefixListEntry) :
    ∃ r, better best entry = some r ∧ (best = some r ∨ entry = r) ∧ r.seq ≤ entry.seq ∧
      ∀ held, best = some held → r.seq ≤ held.seq := by
  cases best with
  | none =>
    refine ⟨entry, rfl, Or.inr rfl, Nat.le_refl _, ?_⟩
    intro held hheld
    exact absurd hheld (by simp)
  | some held =>
    rw [better]
    split
    · next hlt =>
        refine ⟨entry, rfl, Or.inr rfl, Nat.le_refl _, ?_⟩
        intro held' hheld
        exact Option.some.inj hheld ▸ Nat.le_of_lt hlt
    · next hge =>
        refine ⟨held, rfl, Or.inl rfl, Nat.le_of_not_lt hge, ?_⟩
        intro held' hheld
        exact Option.some.inj hheld ▸ Nat.le_refl _

/-- A node leaves the best so far or what it offers. -/
theorem offered_sound {n : NodeId} (hn : n ∈ live) (hcov : trie.Covers addr plen n)
    {best : Option PrefixListEntry} {r : PrefixListEntry}
    (hr : offered plen (trie.cell n) best = some r) :
    best = some r ∨ Offers trie live addr plen n r := by
  rw [offered] at hr
  split at hr
  · next hreal =>
      cases hfirst : ((trie.cell n).value.getD []).find? (admits plen) with
      | none =>
        rw [hfirst] at hr
        exact Or.inl hr
      | some entry =>
        obtain ⟨r', hr', hfrom, -⟩ := better_spec best entry
        simp only [hfirst, hr', Option.some.injEq] at hr
        subst hr
        rcases hfrom with hbest | rfl
        · exact Or.inl hbest
        · exact Or.inr ⟨hn, hcov, hreal, hfirst⟩
  · exact Or.inl hr

theorem offered_keeps (plen : Nat) (node : TrieNode (List PrefixListEntry))
    (held : PrefixListEntry) : ∃ r, offered plen node (some held) = some r ∧ r.seq ≤ held.seq := by
  rw [offered]
  split
  · split
    · exact ⟨held, rfl, Nat.le_refl _⟩
    · next entry _ =>
        obtain ⟨r, hr, -, -, hle⟩ := better_spec (some held) entry
        exact ⟨r, hr, hle held rfl⟩
  · exact ⟨held, rfl, Nat.le_refl _⟩

theorem Offers.offered {n : NodeId} {entry : PrefixListEntry}
    (h : Offers trie live addr plen n entry) (best : Option PrefixListEntry) :
    ∃ r, offered plen (trie.cell n) best = some r ∧ r.seq ≤ entry.seq := by
  obtain ⟨r, hr, -, hle, -⟩ := better_spec best entry
  rw [FiledList.offered, if_pos h.real, h.first]
  exact ⟨r, hr, hle⟩

theorem lookupLoop_sound (h : trie.Shaped live) (haddr : addr.length = trie.alen)
    {fuel : Nat} {n : Option NodeId} {best : Option PrefixListEntry} {r : PrefixListEntry}
    (hn : ∀ m, n = some m → m ∈ live) (hr : lookupLoop trie addr plen fuel n best = some r) :
    best = some r ∨ ∃ m, Offers trie live addr plen m r := by
  induction fuel generalizing n best with
  | zero => exact Or.inl hr
  | succ fuel ih =>
    cases n with
    | none => exact Or.inl hr
    | some m =>
      have hm := hn m rfl
      rw [lookupLoop] at hr
      by_cases hlt : plen < (trie.cell m).plen
      · rw [if_pos hlt] at hr
        exact Or.inl hr
      · rw [if_neg hlt] at hr
        by_cases hmatch : pfxMatch (trie.cell m).addr (trie.cell m).plen addr = true
        · have hcov : trie.Covers addr plen m :=
            ⟨Nat.le_of_not_lt hlt, (h.match_iff hm haddr).mp hmatch⟩
          have hhere : offered plen (trie.cell m) best = some r →
              best = some r ∨ ∃ m, Offers trie live addr plen m r :=
            fun heq => (offered_sound hm hcov heq).imp_right fun hoffer => ⟨m, hoffer⟩
          rw [hmatch, Bool.not_true, if_neg Bool.false_ne_true] at hr
          by_cases hplen : (trie.cell m).plen = plen
          · simp only [hplen, if_true] at hr
            exact hhere hr
          · simp only [hplen, if_false] at hr
            rcases ih (fun c hc => h.child_live hm hc) hr with hbest | hoffer
            · exact hhere hbest
            · exact Or.inr hoffer
        · rw [Bool.not_eq_true] at hmatch
          rw [hmatch, Bool.not_false, if_pos rfl] at hr
          exact Or.inl hr

theorem lookupLoop_keeps (trie : Trie (List PrefixListEntry)) (addr : Bytes) (plen : Nat)
    (fuel : Nat) (n : Option NodeId) (held : PrefixListEntry) :
    ∃ r, lookupLoop trie addr plen fuel n (some held) = some r ∧ r.seq ≤ held.seq := by
  induction fuel generalizing n held with
  | zero => exact ⟨held, rfl, Nat.le_refl _⟩
  | succ fuel ih =>
    cases n with
    | none => exact ⟨held, rfl, Nat.le_refl _⟩
    | some m =>
      rw [lookupLoop]
      split
      · exact ⟨held, rfl, Nat.le_refl _⟩
      · split
        · exact ⟨held, rfl, Nat.le_refl _⟩
        · obtain ⟨r, hr, hle⟩ := offered_keeps plen (trie.cell m) held
          simp only [hr]
          split
          · exact ⟨r, rfl, hle⟩
          · obtain ⟨r', hr', hle'⟩ := ih ((trie.cell m).child (pfxBit addr (trie.cell m).plen)) r
            exact ⟨r', hr', Nat.le_trans hle' hle⟩

theorem lookupLoop_complete (h : trie.Shaped live) (haddr : addr.length = trie.alen)
    {a m : NodeId} {entry : PrefixListEntry} (hpass : trie.Passes addr plen a m)
    (ha : a ∈ live) (hoffer : Offers trie live addr plen m entry) {fuel : Nat}
    {best : Option PrefixListEntry} (hfuel : plen < fuel + (trie.cell a).plen) :
    ∃ r, lookupLoop trie addr plen fuel (some a) best = some r ∧ r.seq ≤ entry.seq := by
  induction hpass generalizing fuel best with
  | refl m =>
    have hle := hoffer.covers.1
    obtain ⟨k, rfl⟩ : ∃ k, fuel = k + 1 := ⟨fuel - 1, by omega⟩
    have hmatch := (h.match_iff ha haddr).mpr hoffer.covers.2
    obtain ⟨r, hr, hler⟩ := hoffer.offered best
    rw [lookupLoop, if_neg (Nat.not_lt.mpr hle), hmatch, Bool.not_true, if_neg Bool.false_ne_true]
    simp only [hr]
    split
    · exact ⟨r, rfl, hler⟩
    · obtain ⟨r', hr', hle'⟩ := lookupLoop_keeps trie addr plen k
        ((trie.cell m).child (pfxBit addr (trie.cell m).plen)) r
      exact ⟨r', hr', Nat.le_trans hle' hler⟩
  | @step p n m hcovp hnext rest ih =>
    obtain ⟨hn, -, hedge⟩ := h.tree.child_spec ha hnext
    obtain ⟨-, hrank⟩ := h.tree.rank_walk trie.edgeRule hn rest
    have hlt : (trie.cell p).plen < (trie.cell n).plen := hedge.1
    have hle : (trie.cell n).plen ≤ plen := by
      rcases hrank with rfl | hlt'
      · exact hoffer.covers.1
      · exact Nat.le_trans (Nat.le_of_lt hlt') hoffer.covers.1
    obtain ⟨k, rfl⟩ : ∃ k, fuel = k + 1 := ⟨fuel - 1, by omega⟩
    have hmatch := (h.match_iff ha haddr).mpr hcovp.2
    have hstop : ¬plen < (trie.cell p).plen := by omega
    have hne : ¬(trie.cell p).plen = plen := by omega
    have hturn : (trie.cell p).child (pfxBit addr (trie.cell p).plen) = some n := hnext
    rw [lookupLoop, if_neg hstop, hmatch, Bool.not_true, if_neg Bool.false_ne_true]
    simp only [hne, if_false, hturn]
    exact ih hn hoffer (by omega)

/-- An entry is on a prefix that contains the candidate, and admits its length. -/
def Matches (p : Prefix) (entry : PrefixListEntry) : Prop :=
  entry.pfx.Contains p ∧ admits p.plen entry = true

theorem contains_iff_covers {p q : Prefix} (hafi : p.afi = trie.afi) (hq : q.afi = trie.afi)
    {n : NodeId} (hnode : NodeOf trie live q.addr q.plen n) :
    q.Contains p ↔ trie.Covers p.addr p.plen n := by
  have hlen : q.addr.length = p.addr.length := (length_addr_eq hq).trans (length_addr_eq hafi).symm
  rw [Prefix.Contains, Prefix.ContainsAddr, mask_eq_iff_agreeTo hlen q.masked, Covers,
    hnode.addr, hnode.plen, hq, hafi]
  exact and_congr_right fun _ => and_iff_right rfl

variable {l : FiledList}

/-- The buckets, one for a node: what a node holds are the entries on its prefix. -/
theorem Filed.bucket {d : Dict Prefix (List PrefixListEntry)} {entries : List PrefixListEntry}
    (hrep : trie.Represents live d) (hbuckets : ∀ p, d.get? p = bucketOf entries p)
    {n : NodeId} (hn : n ∈ live) (hreal : (trie.cell n).isReal = true) :
    ∃ q : Prefix, q.afi = trie.afi ∧ NodeOf trie live q.addr q.plen n ∧
      (trie.cell n).value.getD [] = entries.filter fun e => e.pfx = q := by
  have hvalid := hrep.shaped.valid n hn
  let q : Prefix := ⟨trie.afi, (trie.cell n).plen, (trie.cell n).addr, hrep.known,
    hvalid.plen_le, hvalid.length_addr, hvalid.masked⟩
  have hnode : NodeOf trie live q.addr q.plen n := ⟨hn, rfl, rfl⟩
  have hvalue := hrep.value_eq (p := q) rfl hnode
  rw [hvalid.real, hvalue, hbuckets, bucketOf] at hreal
  refine ⟨q, rfl, hnode, ?_⟩
  rw [hvalue, hbuckets, bucketOf]
  split
  · next hnil => simp [hnil] at hreal
  · rfl

/-- A lookup finds the lowest seq among the entries that match. -/
theorem Filed.lookup_spec (h : l.Filed) {p : Prefix} (hafi : p.afi = l.afi) :
    (∀ r, l.lookup p = some r → r ∈ l.entries ∧ Matches p r) ∧
      ∀ entry ∈ l.entries, Matches p entry → ∃ r, l.lookup p = some r ∧ r.seq ≤ entry.seq := by
  obtain ⟨live, d, hrep, hbuckets⟩ := h.buckets
  have hfamily : p.afi = l.trie.afi := hafi.trans h.afi.symm
  have haddr := length_addr_eq hfamily
  constructor
  · intro r hr
    rcases lookupLoop_sound hrep.shaped haddr (fun m hm => hrep.shaped.root_live hm) hr
      with hnone | ⟨n, hoffer⟩
    · exact absurd hnone (by simp)
    · obtain ⟨q, hq, hnode, hbucket⟩ := Filed.bucket hrep hbuckets hoffer.live hoffer.real
      have hfirst := hoffer.first
      rw [hbucket] at hfirst
      obtain ⟨hmem, hpfx⟩ := List.mem_filter.mp (List.mem_of_find?_eq_some hfirst)
      have heq : r.pfx = q := of_decide_eq_true hpfx
      refine ⟨hmem, ?_, List.find?_some hfirst⟩
      rw [heq, contains_iff_covers hfamily hq hnode]
      exact hoffer.covers
  · rintro entry hmem ⟨hcontains, hadmits⟩
    have hbucket : entry ∈ l.entries.filter fun e => e.pfx = entry.pfx :=
      List.mem_filter.mpr ⟨hmem, decide_eq_true rfl⟩
    have hget : d.get? entry.pfx = some (l.entries.filter fun e => e.pfx = entry.pfx) := by
      rw [hbuckets, bucketOf]
      exact if_neg (List.ne_nil_of_mem hbucket)
    obtain ⟨hq, n, hnode, hvalue⟩ := (hrep.entries _ _).mp hget
    have hcov := (contains_iff_covers hfamily hq hnode).mp hcontains
    have hreal := (hrep.shaped.valid n hnode.live).real
    rw [hvalue] at hreal
    cases hfirst : (l.entries.filter fun e => e.pfx = entry.pfx).find? (admits p.plen) with
    | none =>
      have hnot := List.find?_eq_none.mp hfirst entry hbucket
      exact absurd hadmits hnot
    | some first =>
      have hoffer : Offers l.trie live p.addr p.plen n first :=
        ⟨hnode.live, hcov, hreal, by rw [hvalue]; exact hfirst⟩
      have hasc := List.Pairwise.filter (fun e => decide (e.pfx = entry.pfx)) h.ascending
      have hle : first.seq ≤ entry.seq := by
        obtain ⟨-, before, after, hsplit, hbefore⟩ := List.find?_eq_some_iff_append.mp hfirst
        rw [hsplit] at hbucket hasc
        rcases List.mem_append.mp hbucket with hin | hin
        · have hnot := hbefore entry hin
          rw [hadmits] at hnot
          exact absurd hnot (by simp)
        · rcases List.mem_cons.mp hin with rfl | hin
          · exact Nat.le_refl _
          · have hrest := (List.pairwise_append.mp hasc).2.1
            exact Nat.le_of_lt ((List.pairwise_cons.mp hrest).1 entry hin)
      obtain ⟨a, hroot, hpass⟩ := hrep.shaped.passes hnode.live hcov
      have hbits := plen_le_abits hfamily
      have hfuel : p.plen < l.trie.abits + 1 + (l.trie.cell a).plen := by omega
      have hroot_live := hrep.shaped.root_live hroot
      rw [lookup, hroot]
      obtain ⟨r, hr, hler⟩ := lookupLoop_complete hrep.shaped haddr hpass hroot_live hoffer hfuel
      exact ⟨r, hr, Nat.le_trans hler hle⟩

end FiledList

/-- A line of a prefix-list as it is written.  A bound of 0 is one not configured. -/
structure PrefixLine where
  seq : Nat
  action : Action
  pfx : Prefix
  le : Nat
  ge : Nat
deriving DecidableEq

namespace PrefixLine

/-- The bounds of a line are in order: neither is short of the prefix, and the upper is
not below the lower. -/
def InOrder (line : PrefixLine) : Prop :=
  (line.le = 0 ∨ line.pfx.plen ≤ line.le) ∧ (line.ge = 0 ∨ line.pfx.plen ≤ line.ge) ∧
    (line.le = 0 ∨ line.ge = 0 ∨ line.ge ≤ line.le)

instance (line : PrefixLine) : Decidable line.InOrder := by
  unfold InOrder
  infer_instance

/-- The line that the arguments of a call spell, if they spell one.  A prefix that is not
given as text is given here as the text of it. -/
def read (seq action pfx le ge : Json) : Option PrefixLine := do
  let p ← pfx.str?.bind parsePrefix
  let le ← le.intIn? 0 (pfxAddrBits p.afi)
  let ge ← ge.intIn? 0 (pfxAddrBits p.afi)
  let seq ← seqNumber seq
  let action ← actionId action
  let line : PrefixLine := ⟨seq, action, p, le, ge⟩
  if line.InOrder then some line else none

/-- The lengths a line admits, in its four spellings. -/
def Admits (line : PrefixLine) (plen : Nat) : Prop :=
  match line.ge, line.le with
  | 0, 0 => plen = line.pfx.plen
  | ge + 1, 0 => ge + 1 ≤ plen
  | 0, le + 1 => line.pfx.plen ≤ plen ∧ plen ≤ le + 1
  | ge + 1, le + 1 => ge + 1 ≤ plen ∧ plen ≤ le + 1

/-- A line is about a prefix: its own contains it, and its window admits its length. -/
def Decides (line : PrefixLine) (p : Prefix) : Prop := line.pfx.Contains p ∧ line.Admits p.plen

/-- The entry made of a line. -/
def entry (line : PrefixLine) : PrefixListEntry where
  seq := line.seq
  action := line.action
  pfx := line.pfx
  lo := if line.ge ≠ 0 then line.ge else line.pfx.plen
  hi := if line.le ≠ 0 then line.le
    else if line.ge ≠ 0 then pfxAddrBits line.pfx.afi
    else line.pfx.plen

/-- The constructor of an entry takes the arguments that spell a line. -/
theorem new_eq (seq action pfx le ge : Json) :
    PrefixListEntry.new seq action pfx le ge = (read seq action pfx le ge).map entry := by
  rw [PrefixListEntry.new, read]
  cases hpfx : pfx.str?.bind parsePrefix with
  | none => rfl
  | some p =>
    cases hle : le.intIn? 0 (pfxAddrBits p.afi) with
    | none => simp [hle]
    | some le =>
      cases hge : ge.intIn? 0 (pfxAddrBits p.afi) with
      | none => simp [hle, hge]
      | some ge =>
        simp only [hle, hge, Option.bind_eq_bind, Option.bind_some, Option.map_bind]
        have horder : ∀ seq action, InOrder ⟨seq, action, p, le, ge⟩ ↔
            ¬(le ≠ 0 ∧ le < p.plen) ∧ ¬(ge ≠ 0 ∧ ge < p.plen) ∧ ¬(le ≠ 0 ∧ ge ≠ 0 ∧ ge > le) := by
          intro seq action
          simp only [InOrder]
          omega
        simp only [horder]
        by_cases hinorder : ¬(le ≠ 0 ∧ le < p.plen) ∧ ¬(ge ≠ 0 ∧ ge < p.plen) ∧
            ¬(le ≠ 0 ∧ ge ≠ 0 ∧ ge > le)
        · obtain ⟨hlow, hlow', hcross⟩ := id hinorder
          rw [if_neg hlow, if_neg hlow', if_neg hcross]
          simp only [if_pos hinorder]
          cases seqNumber seq <;> cases actionId action <;> rfl
        · simp only [if_neg hinorder]
          cases seqNumber seq <;> cases actionId action <;> grind

/-- The window is the four spellings. -/
theorem matches_iff (line : PrefixLine) (p : Prefix) :
    FiledList.Matches p line.entry ↔ line.Decides p := by
  apply and_congr_right
  intro hcontains
  have hafi : line.pfx.afi = p.afi := hcontains.2.1
  have hbits : p.plen ≤ pfxAddrBits line.pfx.afi := hafi ▸ p.plen_le
  obtain ⟨seq, action, pfx, le, ge⟩ := line
  simp only [FiledList.admits, entry, Bool.and_eq_true, decide_eq_true_eq]
  cases ge with
  | zero =>
    cases le with
    | zero =>
      simp only [Admits, ne_eq, not_true_eq_false, if_false]
      omega
    | succ le => simp [Admits]
  | succ ge =>
    cases le with
    | zero => simpa [Admits] using fun _ => hbits
    | succ le => simp [Admits]

end PrefixLine

/-- The calls that change a prefix-list. -/
inductive PrefixListCall where
  | add (seq action pfx le ge : Json)
  | remove (seq : Json)
  | clear

/-- The prefix-list after a call.  One that raises changes nothing. -/
def FiledList.call (l : FiledList) : PrefixListCall → FiledList
  | .add seq action pfx le ge => ((PrefixListEntry.new seq action pfx le ge).bind l.add).getD l
  | .remove seq => ((seqNumber seq).map l.remove).getD l
  | .clear => l.clear

/-- The lines after a call: the one added replaces the one of its seq. -/
def PrefixLine.called (afi : Nat) (lines : Nat → Option PrefixLine) :
    PrefixListCall → Nat → Option PrefixLine
  | .add seq action pfx le ge =>
    match PrefixLine.read seq action pfx le ge with
    | none => lines
    | some line => if line.pfx.afi = afi then Function.update lines line.seq (some line) else lines
  | .remove seq =>
    match seqNumber seq with
    | none => lines
    | some seq => Function.update lines seq none
  | .clear => fun _ => none

/-- The lines that calls leave on a list that began empty. -/
def PrefixLine.after (afi : Nat) (calls : List PrefixListCall) : Nat → Option PrefixLine :=
  calls.foldl (PrefixLine.called afi) fun _ => none

namespace FiledList

/-- A prefix-list in order holds the entries of some lines. -/
structure Holds (l : FiledList) (lines : Nat → Option PrefixLine) : Prop where
  filed : l.Filed
  entries : ∀ e, e ∈ l.entries ↔ ∃ line, lines e.seq = some line ∧ line.entry = e
  keyed : ∀ seq line, lines seq = some line → line.seq = seq ∧ line.pfx.afi = l.afi

variable {l : FiledList} {lines : Nat → Option PrefixLine}

theorem Holds.put (h : l.Holds lines) {line : PrefixLine} (hafi : line.pfx.afi = l.afi) :
    ∃ l', l.add line.entry = some l' ∧ l'.afi = l.afi ∧
      l'.Holds (Function.update lines line.seq (some line)) := by
  obtain ⟨l', hadd, hafi', hfiled, hentries⟩ := h.filed.add (show line.entry.pfx.afi = l.afi from hafi)
  refine ⟨l', hadd, hafi', hfiled, ?_, ?_⟩
  · intro e
    have hseq : line.entry.seq = line.seq := rfl
    rw [hentries, h.filed.ascending.mem_insert_iff, h.entries, hseq]
    by_cases he : e.seq = line.seq
    · rw [he, Function.update_self]
      constructor
      · rintro (rfl | ⟨-, hne⟩)
        · exact ⟨line, rfl, rfl⟩
        · exact absurd rfl hne
      · rintro ⟨line', hline, rfl⟩
        exact Or.inl (Option.some.inj hline ▸ rfl)
    · rw [Function.update_of_ne he]
      constructor
      · rintro (rfl | ⟨hold, -⟩)
        · exact absurd rfl he
        · exact hold
      · exact fun hold => Or.inr ⟨hold, he⟩
  · intro seq line' hline
    by_cases hseq : seq = line.seq
    · rw [hseq, Function.update_self, Option.some.injEq] at hline
      rw [← hline, hseq, hafi']
      exact ⟨rfl, hafi⟩
    · rw [Function.update_of_ne hseq] at hline
      rw [hafi']
      exact h.keyed seq line' hline

theorem Holds.take (h : l.Holds lines) (seq : Nat) :
    (l.remove seq).afi = l.afi ∧ (l.remove seq).Holds (Function.update lines seq none) := by
  obtain ⟨hafi, hfiled, hentries⟩ := h.filed.remove seq
  refine ⟨hafi, hfiled, ?_, ?_⟩
  · intro e
    rw [hentries, List.mem_filter, h.entries, decide_eq_true_eq]
    by_cases he : e.seq = seq
    · simp [he]
    · rw [Function.update_of_ne he]
      exact and_iff_left he
  · intro seq' line hline
    by_cases hseq : seq' = seq
    · rw [hseq, Function.update_self] at hline
      exact absurd hline (by simp)
    · rw [Function.update_of_ne hseq] at hline
      rw [hafi]
      exact h.keyed seq' line hline

theorem Holds.empty (hfiled : l.Filed) (hempty : l.entries = []) : l.Holds fun _ => none := by
  refine ⟨hfiled, ?_, ?_⟩
  · intro e
    simp [hempty]
  · intro seq line hline
    exact absurd hline (by simp)

/-- A call does to the list what it does to the lines. -/
theorem Holds.call (h : l.Holds lines) (c : PrefixListCall) :
    (l.call c).afi = l.afi ∧ (l.call c).Holds (PrefixLine.called l.afi lines c) := by
  cases c with
  | add seq action pfx le ge =>
    rw [FiledList.call, PrefixLine.called, PrefixLine.new_eq]
    cases PrefixLine.read seq action pfx le ge with
    | none => exact ⟨rfl, h⟩
    | some line =>
      simp only [Option.map_some, Option.bind_some]
      by_cases hafi : line.pfx.afi = l.afi
      · obtain ⟨l', hadd, hafi', h'⟩ := h.put hafi
        rw [hadd, Option.getD_some, if_pos hafi]
        exact ⟨hafi', h'⟩
      · have hother : l.add line.entry = none := if_pos hafi
        rw [hother, Option.getD_none, if_neg hafi]
        exact ⟨rfl, h⟩
  | remove seq =>
    rw [FiledList.call, PrefixLine.called]
    cases seqNumber seq with
    | none => exact ⟨rfl, h⟩
    | some seq => exact h.take seq
  | clear =>
    obtain ⟨hafi, hfiled, hempty⟩ := h.filed.clear
    exact ⟨hafi, .empty hfiled hempty⟩

theorem Holds.run {afi : Nat} (hafi : l.afi = afi) (h : l.Holds lines)
    (calls : List PrefixListCall) :
    (calls.foldl FiledList.call l).afi = afi ∧
      (calls.foldl FiledList.call l).Holds (calls.foldl (PrefixLine.called afi) lines) := by
  induction calls generalizing l lines with
  | nil => exact ⟨hafi, h⟩
  | cons c rest ih =>
    obtain ⟨hafi', h'⟩ := h.call c
    rw [hafi] at hafi' h'
    exact ih hafi' h'

theorem Holds.afi_eq (h : l.Holds lines) {line : PrefixLine} {p : Prefix}
    (hline : lines line.seq = some line) (hdecides : line.Decides p) : p.afi = l.afi :=
  hdecides.1.2.1.symm.trans (h.keyed line.seq line hline).2

/-- A lookup finds the entry of the lowest line that decides. -/
theorem Holds.lookup_spec (h : l.Holds lines) {p : Prefix} (hafi : p.afi = l.afi) :
    (∀ r, l.lookup p = some r →
        ∃ line, lines line.seq = some line ∧ line.Decides p ∧ line.entry = r) ∧
      ∀ line, lines line.seq = some line → line.Decides p →
        ∃ r, l.lookup p = some r ∧ r.seq ≤ line.seq := by
  obtain ⟨hsound, hcomplete⟩ := h.filed.lookup_spec hafi
  constructor
  · intro r hr
    obtain ⟨hmem, hmatches⟩ := hsound r hr
    obtain ⟨line, hline, rfl⟩ := (h.entries r).mp hmem
    exact ⟨line, hline, (line.matches_iff p).mp hmatches, rfl⟩
  · intro line hline hdecides
    have hmem : line.entry ∈ l.entries := (h.entries line.entry).mpr ⟨line, hline, rfl⟩
    exact hcomplete line.entry hmem ((line.matches_iff p).mpr hdecides)

/-- A list decides by the lowest of the lines that decide. -/
theorem Holds.evaluate_iff (h : l.Holds lines) (p : Prefix) (action : Action) :
    l.evaluate p = some action ↔
      ∃ line, lines line.seq = some line ∧ line.Decides p ∧ line.action = action ∧
        ∀ other, lines other.seq = some other → other.Decides p → line.seq ≤ other.seq := by
  rw [evaluate]
  by_cases hafi : p.afi = l.afi
  · obtain ⟨hsound, hcomplete⟩ := h.lookup_spec hafi
    rw [if_neg (not_not_intro hafi), Option.map_eq_some_iff]
    constructor
    · rintro ⟨r, hr, haction⟩
      obtain ⟨line, hline, hdecides, rfl⟩ := hsound r hr
      refine ⟨line, hline, hdecides, haction, ?_⟩
      intro other hother hdecides'
      obtain ⟨r', hr', hle⟩ := hcomplete other hother hdecides'
      rw [hr, Option.some.injEq] at hr'
      rwa [← hr'] at hle
    · rintro ⟨line, hline, hdecides, haction, hlowest⟩
      obtain ⟨r, hr, hle⟩ := hcomplete line hline hdecides
      obtain ⟨line', hline', hdecides', rfl⟩ := hsound r hr
      have hseq : line'.seq = line.seq := Nat.le_antisymm hle (hlowest line' hline' hdecides')
      rw [hseq, hline, Option.some.injEq] at hline'
      rw [← hline'] at hr
      exact ⟨line.entry, hr, haction⟩
  · rw [if_pos hafi]
    constructor
    · intro hnone
      exact absurd hnone (by simp)
    · rintro ⟨line, hline, hdecides, -⟩
      exact absurd (h.afi_eq hline hdecides) hafi

/-- A list without a line that decides does not decide. -/
theorem Holds.evaluate_none_iff (h : l.Holds lines) (p : Prefix) :
    l.evaluate p = none ↔ ∀ line, lines line.seq = some line → ¬line.Decides p := by
  rw [evaluate]
  by_cases hafi : p.afi = l.afi
  · obtain ⟨hsound, hcomplete⟩ := h.lookup_spec hafi
    rw [if_neg (not_not_intro hafi), Option.map_eq_none_iff]
    constructor
    · intro hnone line hline hdecides
      obtain ⟨r, hr, -⟩ := hcomplete line hline hdecides
      rw [hnone] at hr
      exact absurd hr (by simp)
    · intro hnever
      apply Option.eq_none_iff_forall_ne_some.mpr
      intro r hr
      obtain ⟨line, hline, hdecides, -⟩ := hsound r hr
      exact hnever line hline hdecides
  · rw [if_pos hafi]
    constructor
    · intro _ line hline hdecides
      exact hafi (h.afi_eq hline hdecides)
    · exact fun _ => rfl

/-- After any calls on a new list its entries ascend by seq and are those of the lines the calls
leave, and it decides a prefix by the lowest line that contains and admits it, or not at all
when there is none. -/
theorem evaluate_isScan {afi : Nat} {l₀ : FiledList} (hnew : FiledList.new afi = some l₀)
    (calls : List PrefixListCall) :
    (calls.foldl FiledList.call l₀).entries.Pairwise (fun a b => a.seq < b.seq) ∧
      (∀ e, e ∈ (calls.foldl FiledList.call l₀).entries ↔
        ∃ line, PrefixLine.after afi calls e.seq = some line ∧ line.entry = e) ∧
      ∀ p : Prefix,
        (∀ action, (calls.foldl FiledList.call l₀).evaluate p = some action ↔
          ∃ line, PrefixLine.after afi calls line.seq = some line ∧ line.Decides p ∧
            line.action = action ∧
              ∀ other, PrefixLine.after afi calls other.seq = some other →
                other.Decides p → line.seq ≤ other.seq) ∧
        ((calls.foldl FiledList.call l₀).evaluate p = none ↔
          ∀ line, PrefixLine.after afi calls line.seq = some line → ¬line.Decides p) := by
  obtain ⟨hafi, hempty, hfiled⟩ := Filed.new hnew
  obtain ⟨-, h⟩ := (Holds.empty hfiled hempty).run hafi calls
  exact ⟨h.filed.ascending, h.entries, fun p => ⟨h.evaluate_iff p, h.evaluate_none_iff p⟩⟩

/-- A longer line of lower seq overrides a shorter one, until it is moved away. -/
theorem evaluate_isScan_moved :
    ∃ l₀ l : FiledList, FiledList.new AFI_IP = some l₀ ∧
      l = [PrefixListCall.add (.int 10) (.str "deny") (.str "10.0.0.0/8") (.int 24) (.int 0),
        .add (.int 5) (.str "permit") (.str "10.1.0.0/16") (.int 0) (.int 0)].foldl
          FiledList.call l₀ ∧
      l.entries.Pairwise (fun a b => a.seq < b.seq) ∧
      l.evaluate netSixteen = some .permit ∧
      (l.call (.add (.int 5) (.str "permit") (.str "11.0.0.0/8") (.int 0)
        (.int 0))).evaluate netSixteen = some .deny := by
  refine ⟨_, _, rfl, rfl, (@evaluate_isScan AFI_IP _ rfl _).1, ?_, ?_⟩
  · decide +kernel
  · decide +kernel

end FiledList

end Packets
