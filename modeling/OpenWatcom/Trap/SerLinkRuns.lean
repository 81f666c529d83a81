import OpenWatcom.Trap.SerLink
import Mathlib.Tactic

/-!
# What the link delivers

* `Outstanding`     a peer waits for the acknowledgement of a block the other one has yet to accept;
* `Allowed`     no acknowledgement gets on the line to a peer with an outstanding block, block numbers
                stay below 65536, and `BlockSend` does not give up;
* `Channel`     what then holds of each direction;
* `delivered_of_allowed`     the blocks returned are the blocks passed, but for the one in flight;
* `wrapped_block_lost`     the 65537th block is acknowledged and dropped.
-/

namespace SerLink
open Events

/-! ## the condition -/

/-- `p` waits for the acknowledgement of a block that `q` has yet to accept -/
def Outstanding (p q : Peer) : Prop := (∃ data, p.mode = .sending data) ∧ p.sendBlkNo = q.receiveBlkNo

def NoAck (l : List Item) : Prop := Item.byte sdataACK ∉ l

/-- the acts of `p` that keep the numbers below 65536 and send no acknowledgement to an `q` with an
outstanding block -/
def ActAllowed (p q : Peer) (line : List Item) : Act → Prop
  | .blockSend _ cleared => p.sendBlkNo < 2 ^ 16 ∧ NoAck (line.drop cleared)
  | .giveUp => False
  | .reply _ =>
    line.head? = some (.byte sdataRLR) → p.lastResponse = sdataACK → ¬ Outstanding q p
  | .receive maxLen _ _ =>
    ∀ blkno data, line.head? = some (.block blkno data) → data.length ≤ maxLen →
      p.receiveBlkNo ≠ blkno → ¬ Outstanding q p
  | _ => True

/-- damage makes no acknowledgement for a peer with an outstanding block -/
def DamageAllowed (q p : Peer) (bytes : List UInt8) : Prop := Outstanding q p → sdataACK ∉ bytes

def Allowed : Event → Sys → Prop
  | .here a, s => ActAllowed s.here s.there s.back a
  | .there a, s => ActAllowed s.there s.here s.out a
  | .damageOut _ bytes, s => DamageAllowed s.there s.here bytes
  | .damageBack _ bytes, s => DamageAllowed s.here s.there bytes

/-! ## one direction -/

/-- where the sender `p` and the receiver `q` stand -/
inductive Stand (p q : Peer) (back : List Item) : Prop where
  /-- all blocks have been accepted and acknowledged -/
  | quiet (hmode : ∀ data, p.mode ≠ .sending data) (hpassed : p.passed = p.confirmed)
      (hreturned : q.returned = p.confirmed) (hno : p.sendBlkNo = q.receiveBlkNo)
  /-- the block in flight has yet to be accepted -/
  | outstanding (data : List UInt8) (hmode : p.mode = .sending data)
      (hpassed : p.passed = p.confirmed ++ [data]) (hlt : p.sendBlkNo < 2 ^ 16)
      (hreturned : q.returned = p.confirmed) (hno : p.sendBlkNo = q.receiveBlkNo) (hack : NoAck back)
  /-- the block in flight has been accepted -/
  | accepted (data : List UInt8) (hmode : p.mode = .sending data)
      (hpassed : p.passed = p.confirmed ++ [data]) (hlt : p.sendBlkNo < 2 ^ 16)
      (hreturned : q.returned = p.confirmed ++ [data]) (hno : q.receiveBlkNo = p.sendBlkNo + 1)

/-- the direction from `p` to `q`: the blocks on the line are older ones or the one in flight -/
structure Channel (p q : Peer) (out back : List Item) : Prop where
  stand : Stand p q back
  blocks : ∀ blkno data, .block blkno data ∈ out →
    blkno < p.sendBlkNo ∨ blkno = p.sendBlkNo ∧ p.mode = .sending data

/-- what the claim is about: the blocks returned are the blocks passed, but for one that is still in
flight, and those confirmed have been returned -/
structure Agrees (p q : Peer) : Prop where
  passed : q.returned = p.passed ∨ ∃ data, p.mode = .sending data ∧ p.passed = q.returned ++ [data]
  confirmed : p.confirmed <+: q.returned

theorem Channel.agrees {p q : Peer} {out back : List Item} (h : Channel p q out back) : Agrees p q := by
  cases h.stand with
  | quiet _ hpassed hreturned _ =>
    exact ⟨Or.inl (hreturned.trans hpassed.symm), by rw [hreturned]⟩
  | outstanding data hmode hpassed _ hreturned _ _ =>
    exact ⟨Or.inr ⟨data, hmode, by rw [hreturned, hpassed]⟩, by rw [hreturned]⟩
  | accepted data _ hpassed _ hreturned _ =>
    exact ⟨Or.inl (hreturned.trans hpassed.symm), by rw [hreturned]; exact List.prefix_append _ _⟩

/-! ## acts -/

section
variable {p p' q : Peer} {line out sent rest : List Item} {a : Act}

theorem noAck_drop {l : List Item} (h : NoAck l) (n : Nat) : NoAck (l.drop n) :=
  fun hm => h (List.mem_of_mem_drop hm)

theorem noAck_tail {i : Item} {l : List Item} (h : NoAck (i :: l)) : NoAck l :=
  fun hm => h (List.mem_cons_of_mem _ hm)

/-- the sender is as before, and its line holds no more acknowledgements than before -/
theorem Channel.same_sender {back back' : List Item} (h : Channel p q out back)
    (hmode : p'.mode = p.mode ∨ (∀ d, p.mode ≠ .sending d) ∧ ∀ d, p'.mode ≠ .sending d)
    (hno : p'.sendBlkNo = p.sendBlkNo) (hpassed : p'.passed = p.passed)
    (hconf : p'.confirmed = p.confirmed) (hback : NoAck back → NoAck back')
    (hsent : ∀ blkno data, .block blkno data ∈ sent →
      blkno = p.sendBlkNo ∧ p.mode = .sending data) :
    Channel p' q (out ++ sent) back' := by
  have hsending : ∀ d, p.mode = .sending d → p'.mode = .sending d := by
    intro d hd
    obtain e | ⟨e, -⟩ := hmode
    · rw [e, hd]
    · exact absurd hd (e d)
  refine ⟨?_, fun blkno data hm => ?_⟩
  · cases h.stand with
    | quiet h1 h2 h3 h4 =>
      refine .quiet (fun d hd => ?_) (by rw [hpassed, hconf, h2]) (by rw [hconf, h3]) (by rw [hno, h4])
      obtain e | ⟨-, e⟩ := hmode
      · exact h1 d (e ▸ hd)
      · exact e d hd
    | outstanding d h1 h2 h3 h4 h5 h6 =>
      exact .outstanding d (hsending d h1) (by rw [hpassed, hconf, h2]) (by rw [hno]; exact h3)
        (by rw [hconf, h4]) (by rw [hno, h5]) (hback h6)
    | accepted d h1 h2 h3 h4 h5 =>
      exact .accepted d (hsending d h1) (by rw [hpassed, hconf, h2]) (by rw [hno]; exact h3)
        (by rw [hconf, h4]) (by rw [hno, h5])
  · rw [hno]
    obtain hm | hm := List.mem_append.mp hm
    · exact (h.blocks blkno data hm).imp_right fun e => ⟨e.1, hsending data e.2⟩
    · obtain ⟨h1, h2⟩ := hsent blkno data hm
      exact Or.inr ⟨h1, hsending data h2⟩

/-- the receiver has accepted nothing, and sends no acknowledgement while a block is outstanding -/
theorem Channel.same_receiver {back : List Item} (h : Channel q p line back)
    (hno : p'.receiveBlkNo = p.receiveBlkNo) (hret : p'.returned = p.returned)
    (hrest : ∀ i ∈ rest, i ∈ line) (hsent : Outstanding q p → NoAck sent) :
    Channel q p' rest (back ++ sent) := by
  refine ⟨?_, fun blkno data hm => h.blocks blkno data (hrest _ hm)⟩
  cases h.stand with
  | quiet h1 h2 h3 h4 => exact .quiet h1 h2 (by rw [hret, h3]) (by rw [hno, h4])
  | outstanding d h1 h2 h3 h4 h5 h6 =>
    refine .outstanding d h1 h2 h3 (by rw [hret, h4]) (by rw [hno, h5]) (fun hm => ?_)
    obtain hm | hm := List.mem_append.mp hm
    · exact h6 hm
    · exact hsent ⟨⟨d, h1⟩, h5⟩ hm
  | accepted d h1 h2 h3 h4 h5 => exact .accepted d h1 h2 h3 (by rw [hret, h4]) (by rw [hno, h5])

/-- what is known while a block is in flight -/
theorem Channel.in_flight {back : List Item} {data : List UInt8} (h : Channel p q out back)
    (hmode : p.mode = .sending data) : p.sendBlkNo < 2 ^ 16 ∧ p.wire data = .block p.sendBlkNo data := by
  have hlt : p.sendBlkNo < 2 ^ 16 := by
    cases h.stand with
    | quiet h1 _ _ _ => exact absurd hmode (h1 data)
    | outstanding _ _ _ h3 _ _ _ => exact h3
    | accepted _ _ _ h3 _ _ => exact h3
  exact ⟨hlt, by rw [Peer.wire, Nat.mod_eq_of_lt hlt]⟩

theorem mem_wire {blkno : Nat} {data d : List UInt8} {l : List Item} {back : List Item}
    (h : Channel p q out back) (hmode : p.mode = .sending data) (hpre : ∀ i ∈ l, ∃ b, i = .byte b)
    (hm : Item.block blkno d ∈ l ++ [p.wire data]) : blkno = p.sendBlkNo ∧ p.mode = .sending d := by
  obtain hm | hm := List.mem_append.mp hm
  · obtain ⟨b, hb⟩ := hpre _ hm
    cases hb
  · rw [(h.in_flight hmode).2, List.mem_singleton] at hm
    obtain ⟨rfl, rfl⟩ := Item.block.inj hm
    exact ⟨rfl, hmode⟩

theorem mem_bytes {blkno : Nat} {d : List UInt8} {l : List Item} (hl : ∀ i ∈ l, ∃ b, i = .byte b)
    (hm : Item.block blkno d ∈ l) : False := by
  obtain ⟨b, hb⟩ := hl _ hm
  cases hb

theorem only_byte (b : UInt8) : ∀ i ∈ [Item.byte b], ∃ c, i = .byte c :=
  fun _ hi => ⟨b, List.mem_singleton.mp hi⟩

/-- an acknowledgement ends `BlockSend`, and the block has been accepted -/
theorem Channel.acknowledged {data : List UInt8} (h : Channel p q out (.byte sdataACK :: rest))
    (hmode : p.mode = .sending data) :
    Channel { p with mode := .idle, sendBlkNo := next p.sendBlkNo, confirmed := p.confirmed ++ [data] } q
      (out ++ []) rest := by
  have hnext : next p.sendBlkNo = p.sendBlkNo + 1 := by
    have := (h.in_flight hmode).1
    rw [next]
    omega
  cases h.stand with
  | quiet h1 _ _ _ => exact absurd hmode (h1 data)
  | outstanding _ _ _ _ _ _ h6 => exact absurd List.mem_cons_self h6
  | accepted d h1 h2 h3 h4 h5 =>
    obtain rfl := Mode.sending.inj (h1.symm.trans hmode)
    refine ⟨.quiet (fun _ hd => by cases hd) h2 h4 (hnext.trans h5.symm), fun blkno data hm => ?_⟩
    rw [List.append_nil] at hm
    left
    show blkno < next p.sendBlkNo
    obtain hb | ⟨hb, -⟩ := h.blocks blkno data hm
    · omega
    · omega

/-- an answer in `BlockSend` -/
theorem sender_reply {data : List UInt8} {discarded : Nat} {item : Item} {r : Peer × List Item × List Item}
    (h : Channel p q out (item :: rest)) (hmode : p.mode = .sending data)
    (hr : p.answer data discarded rest item = r) : Channel r.1 q (out ++ r.2.1) r.2.2 := by
  subst hr
  cases item with
  | block blkno d =>
    exact h.same_sender (Or.inl rfl) rfl rfl rfl (fun hn => noAck_drop (noAck_tail hn) _)
      (fun _ _ hm => (mem_bytes (only_byte _) hm).elim)
  | byte b =>
    rw [Peer.answer]
    split_ifs with h1 h2 h3
    · subst h1
      exact h.acknowledged hmode
    · exact h.same_sender (Or.inl rfl) rfl rfl rfl noAck_tail
        (fun _ _ hm => mem_wire h hmode (l := []) (fun _ hi => absurd hi List.not_mem_nil) hm)
    · exact h.same_sender (Or.inl rfl) rfl rfl rfl noAck_tail
        (fun _ _ hm => mem_wire h hmode (only_byte p.lastResponse) hm)
    · exact h.same_sender (Or.inl rfl) rfl rfl rfl (fun hn => noAck_drop (noAck_tail hn) _)
        (fun _ _ hm => (mem_bytes (only_byte _) hm).elim)

/-- what an arrival does not change -/
structure Arrived (p : Peer) (rest : List Item) (r : Peer × List Item × List Item) : Prop where
  mode : r.1.mode = p.mode ∨ r.1.mode = .idle
  sendBlkNo : r.1.sendBlkNo = p.sendBlkNo
  passed : r.1.passed = p.passed
  confirmed : r.1.confirmed = p.confirmed
  sent : ∀ i ∈ r.2.1, ∃ b, i = .byte b
  rest : ∀ i ∈ r.2.2, i ∈ rest

theorem arrive_arrived (p : Peer) (maxLen cleared : Nat) (answered : Bool) (rest : List Item) (item : Item) :
    Arrived p rest (p.arrive maxLen cleared answered rest item) := by
  have hdrop : ∀ i ∈ rest.drop cleared, i ∈ rest := fun _ hi => List.mem_of_mem_drop hi
  have hnone : ∀ i ∈ ([] : List Item), ∃ b, i = .byte b := fun _ hi => absurd hi List.not_mem_nil
  cases item with
  | byte b =>
    rw [Peer.arrive]
    split_ifs
    · exact ⟨Or.inl rfl, rfl, rfl, rfl, only_byte _, hdrop⟩
    · exact ⟨Or.inl rfl, rfl, rfl, rfl, hnone, hdrop⟩
    · exact ⟨Or.inl rfl, rfl, rfl, rfl, only_byte _, fun _ hi => hi⟩
    · exact ⟨Or.inl rfl, rfl, rfl, rfl, hnone, fun _ hi => hi⟩
  | block blkno data =>
    rw [Peer.arrive, Peer.blockReceive]
    split_ifs
    · exact ⟨Or.inl rfl, rfl, rfl, rfl, hnone, hdrop⟩
    · exact ⟨Or.inl rfl, rfl, rfl, rfl, only_byte _, hdrop⟩
    · exact ⟨Or.inr rfl, rfl, rfl, rfl, only_byte _, fun _ hi => hi⟩

/-- an act of the sender -/
theorem sender_act (h : Channel p q out line) (hok : ActAllowed p q line a)
    (hact : p.act line a = some (p', sent, rest)) : Channel p' q (out ++ sent) rest := by
  have hnone : ∀ blkno d, Item.block blkno d ∈ ([] : List Item) → blkno = p.sendBlkNo ∧ p.mode = .sending d :=
    fun _ _ hm => absurd hm List.not_mem_nil
  cases a with
  | blockSend data cleared =>
    rw [Peer.act] at hact
    split_ifs at hact with hidle
    obtain ⟨rfl, rfl, rfl⟩ := Prod.mk.inj (Option.some.inj hact) |>.imp_right Prod.mk.inj
    obtain ⟨hlt, hack⟩ := hok
    have hwire : p.wire data = .block p.sendBlkNo data := by rw [Peer.wire, Nat.mod_eq_of_lt hlt]
    have hns : ∀ d, p.mode ≠ .sending d := fun d hd => by rw [hidle] at hd; cases hd
    cases h.stand with
    | quiet h1 h2 h3 h4 =>
      refine ⟨.outstanding data rfl (congrArg (· ++ [data]) h2) hlt h3 h4 hack, fun blkno d hm => ?_⟩
      obtain hm | hm := List.mem_append.mp hm
      · exact (h.blocks blkno d hm).imp_right fun e => absurd e.2 (hns d)
      · rw [hwire, List.mem_singleton] at hm
        obtain ⟨rfl, rfl⟩ := Item.block.inj hm
        exact Or.inr ⟨rfl, rfl⟩
    | outstanding d h1 _ _ _ _ _ => exact absurd h1 (hns d)
    | accepted d h1 _ _ _ _ => exact absurd h1 (hns d)
  | noData =>
    rw [Peer.act] at hact
    split at hact
    · obtain ⟨rfl, rfl, rfl⟩ := Prod.mk.inj (Option.some.inj hact) |>.imp_right Prod.mk.inj
      exact h.same_sender (Or.inl rfl) rfl rfl rfl id (fun _ _ hm => (mem_bytes (only_byte _) hm).elim)
    · cases hact
  | giveUp => exact hok.elim
  | reply discarded =>
    dsimp only [Peer.act] at hact
    split at hact
    · rename_i data item line' hmode
      exact sender_reply h hmode (Option.some.inj hact)
    · cases hact
  | waitReceive =>
    rw [Peer.act] at hact
    split_ifs at hact with hidle
    obtain ⟨rfl, rfl, rfl⟩ := Prod.mk.inj (Option.some.inj hact) |>.imp_right Prod.mk.inj
    refine h.same_sender (Or.inr ⟨fun d hd => ?_, fun d hd => ?_⟩) rfl rfl rfl id hnone
    · rw [hidle] at hd
      cases hd
    · cases hd
  | timeOut =>
    rw [Peer.act] at hact
    split_ifs at hact with hrec
    obtain ⟨rfl, rfl, rfl⟩ := Prod.mk.inj (Option.some.inj hact) |>.imp_right Prod.mk.inj
    refine h.same_sender (Or.inr ⟨fun d hd => ?_, fun d hd => ?_⟩) rfl rfl rfl id hnone
    · rw [hrec] at hd
      cases hd
    · cases hd
  | receive maxLen cleared answered =>
    dsimp only [Peer.act] at hact
    split at hact
    · rename_i item line' hmode
      have har := arrive_arrived p maxLen cleared answered line' item
      rw [Option.some.inj hact] at har
      refine h.same_sender (Or.inr ⟨fun d hd => ?_, fun d hd => ?_⟩) har.sendBlkNo har.passed har.confirmed
        (fun hn hm => hn (List.mem_cons_of_mem _ (har.rest _ hm)))
        (fun _ _ hm => (mem_bytes har.sent hm).elim)
      · rw [hmode] at hd
        cases hd
      · obtain e | e := har.mode
        · rw [e, hmode] at hd
          cases hd
        · rw [e] at hd
          cases hd
    · cases hact

/-- the block with the awaited number is the one in flight, and it is accepted -/
theorem Channel.accept {back : List Item} {blkno : Nat} {data : List UInt8}
    (h : Channel q p (.block blkno data :: rest) back) (hno : p.receiveBlkNo = blkno) :
    Channel q { p with mode := .idle, lastResponse := sdataACK, receiveBlkNo := next p.receiveBlkNo,
                       returned := p.returned ++ [data] } rest (back ++ sent) := by
  have hb := h.blocks blkno data List.mem_cons_self
  refine ⟨?_, fun b d hm => h.blocks b d (List.mem_cons_of_mem _ hm)⟩
  cases h.stand with
  | quiet h1 _ _ h4 =>
    obtain hb | ⟨-, hb⟩ := hb
    · omega
    · exact absurd hb (h1 data)
  | outstanding d h1 h2 h3 h4 h5 _ =>
    obtain hb | ⟨-, hb⟩ := hb
    · omega
    · obtain rfl := Mode.sending.inj (h1.symm.trans hb)
      refine .accepted d h1 h2 h3 (congrArg (· ++ [d]) h4) ?_
      show next p.receiveBlkNo = _
      rw [next, ← h5]
      omega
  | accepted d h1 _ _ _ h5 =>
    obtain hb | ⟨hb, -⟩ := hb
    · omega
    · omega

theorem noAck_nil : NoAck [] := List.not_mem_nil

theorem noAck_byte {b : UInt8} (hb : b ≠ sdataACK) : NoAck [.byte b] := by
  intro hm
  exact hb (Item.byte.inj (List.mem_singleton.mp hm)).symm

/-- an answer in `BlockSend`, seen by the other side -/
theorem receiver_reply {data : List UInt8} {discarded : Nat} {item : Item} {back : List Item}
    {r : Peer × List Item × List Item} (h : Channel q p (item :: rest) back)
    (hok : item = .byte sdataRLR → p.lastResponse = sdataACK → ¬ Outstanding q p)
    (hr : p.answer data discarded rest item = r) : Channel q r.1 r.2.2 (back ++ r.2.1) := by
  subst hr
  have htail : ∀ i ∈ rest, i ∈ item :: rest := fun _ hi => List.mem_cons_of_mem _ hi
  have hdrop : ∀ i ∈ rest.drop discarded, i ∈ item :: rest :=
    fun _ hi => List.mem_cons_of_mem _ (List.mem_of_mem_drop hi)
  cases item with
  | block blkno d => exact h.same_receiver rfl rfl hdrop fun _ => noAck_byte (by decide)
  | byte b =>
    rw [Peer.answer]
    split_ifs with h1 h2 h3
    · exact h.same_receiver rfl rfl htail fun _ => noAck_nil
    · exact h.same_receiver rfl rfl htail fun _ hm => by cases List.mem_singleton.mp hm
    · subst h3
      refine h.same_receiver rfl rfl htail fun hout hm => ?_
      obtain hm | hm := List.mem_cons.mp hm
      · exact hok rfl (Item.byte.inj hm).symm hout
      · cases List.mem_singleton.mp hm
    · exact h.same_receiver rfl rfl hdrop fun _ => noAck_byte (by decide)

/-- an arrival in `WaitReceive` -/
theorem receiver_arrive {maxLen cleared : Nat} {answered : Bool} {item : Item} {back : List Item}
    {r : Peer × List Item × List Item} (h : Channel q p (item :: rest) back)
    (hok : ∀ blkno data, item = .block blkno data → data.length ≤ maxLen →
      p.receiveBlkNo ≠ blkno → ¬ Outstanding q p)
    (hr : p.arrive maxLen cleared answered rest item = r) : Channel q r.1 r.2.2 (back ++ r.2.1) := by
  subst hr
  have htail : ∀ i ∈ rest, i ∈ item :: rest := fun _ hi => List.mem_cons_of_mem _ hi
  have hdrop : ∀ i ∈ rest.drop cleared, i ∈ item :: rest :=
    fun _ hi => List.mem_cons_of_mem _ (List.mem_of_mem_drop hi)
  cases item with
  | byte b =>
    rw [Peer.arrive]
    split_ifs
    · exact h.same_receiver rfl rfl hdrop fun _ => noAck_byte (by decide)
    · exact h.same_receiver rfl rfl hdrop fun _ => noAck_nil
    · exact h.same_receiver rfl rfl htail fun _ => noAck_byte (by decide)
    · exact h.same_receiver rfl rfl htail fun _ => noAck_nil
  | block blkno data =>
    rw [Peer.arrive, Peer.blockReceive]
    split_ifs with h1 h2
    · exact h.same_receiver rfl rfl hdrop fun _ => noAck_nil
    · exact h.same_receiver rfl rfl hdrop fun hout => absurd hout (hok blkno data rfl (by omega) h2)
    · exact h.accept (not_not.mp h2)

/-- an act of the receiver -/
theorem receiver_act {back : List Item} (h : Channel q p line back) (hok : ActAllowed p q line a)
    (hact : p.act line a = some (p', sent, rest)) : Channel q p' rest (back ++ sent) := by
  cases a with
  | blockSend data cleared =>
    rw [Peer.act] at hact
    split_ifs at hact with hidle
    obtain ⟨rfl, rfl, rfl⟩ := Prod.mk.inj (Option.some.inj hact) |>.imp_right Prod.mk.inj
    exact h.same_receiver rfl rfl (fun _ hi => List.mem_of_mem_drop hi)
      fun _ hm => by cases List.mem_singleton.mp hm
  | noData =>
    rw [Peer.act] at hact
    split at hact
    · obtain ⟨rfl, rfl, rfl⟩ := Prod.mk.inj (Option.some.inj hact) |>.imp_right Prod.mk.inj
      exact h.same_receiver rfl rfl (fun _ hi => hi) fun _ => noAck_byte (by decide)
    · cases hact
  | giveUp => exact hok.elim
  | reply discarded =>
    dsimp only [Peer.act] at hact
    split at hact
    · rename_i data item line' hmode
      exact receiver_reply h (fun e => hok (by rw [e]; rfl)) (Option.some.inj hact)
    · cases hact
  | waitReceive =>
    rw [Peer.act] at hact
    split_ifs at hact with hidle
    obtain ⟨rfl, rfl, rfl⟩ := Prod.mk.inj (Option.some.inj hact) |>.imp_right Prod.mk.inj
    exact h.same_receiver rfl rfl (fun _ hi => hi) fun _ => noAck_nil
  | timeOut =>
    rw [Peer.act] at hact
    split_ifs at hact with hrec
    obtain ⟨rfl, rfl, rfl⟩ := Prod.mk.inj (Option.some.inj hact) |>.imp_right Prod.mk.inj
    exact h.same_receiver rfl rfl (fun _ hi => hi) fun _ => noAck_nil
  | receive maxLen cleared answered =>
    dsimp only [Peer.act] at hact
    split at hact
    · rename_i item line' hmode
      exact receiver_arrive h (fun b d e => hok b d (by rw [e]; rfl)) (Option.some.inj hact)
    · cases hact

end

/-! ## runs -/

/-- both directions -/
structure Linked (s : Sys) : Prop where
  out : Channel s.here s.there s.out s.back
  back : Channel s.there s.here s.back s.out

theorem Linked.swap {s : Sys} (h : Linked s) : Linked s.swap := ⟨h.back, h.out⟩

theorem linked_act {s s' : Sys} {a : Act} (h : Linked s) (hok : ActAllowed s.here s.there s.back a)
    (hact : s.act a = some s') : Linked s' := by
  obtain ⟨r, hr, rfl⟩ := Option.map_eq_some_iff.mp hact
  exact ⟨sender_act h.out hok hr, receiver_act h.back hok hr⟩

theorem linked_damage {s : Sys} {bytes : List UInt8} (h : Linked s)
    (hok : DamageAllowed s.there s.here bytes) (i : Nat) : Linked (s.damage i bytes) := by
  have hmem : ∀ item ∈ s.out.take i ++ bytes.map .byte ++ s.out.drop (i + 1),
      item ∈ s.out ∨ ∃ b ∈ bytes, item = .byte b := by
    intro item hm
    rw [List.append_assoc, List.mem_append, List.mem_append] at hm
    obtain hm | hm | hm := hm
    · exact Or.inl (List.mem_of_mem_take hm)
    · obtain ⟨b, hb, e⟩ := List.mem_map.mp hm
      exact Or.inr ⟨b, hb, e.symm⟩
    · exact Or.inl (List.mem_of_mem_drop hm)
  refine ⟨⟨h.out.stand, fun blkno data hm => ?_⟩, ⟨?_, h.back.blocks⟩⟩
  · obtain hm | ⟨b, -, e⟩ := hmem _ hm
    · exact h.out.blocks blkno data hm
    · cases e
  · cases h.back.stand with
    | quiet h1 h2 h3 h4 => exact .quiet h1 h2 h3 h4
    | outstanding d h1 h2 h3 h4 h5 h6 =>
      refine .outstanding d h1 h2 h3 h4 h5 fun hm => ?_
      obtain hm | ⟨b, hb, e⟩ := hmem _ hm
      · exact h6 hm
      · exact hok ⟨⟨d, h1⟩, h5⟩ (Item.byte.inj e ▸ hb)
    | accepted d h1 h2 h3 h4 h5 => exact .accepted d h1 h2 h3 h4 h5

theorem linked_step (e : Event) (s s' : Sys) (h : Linked s) (hok : Allowed e s) (hs : step e s = some s') :
    Linked s' := by
  cases e with
  | here a => exact linked_act h hok hs
  | there a =>
    obtain ⟨t, ht, rfl⟩ := Option.map_eq_some_iff.mp hs
    exact (linked_act h.swap hok ht).swap
  | damageOut i bytes => exact Option.some.inj hs ▸ linked_damage h hok i
  | damageBack i bytes => exact Option.some.inj hs ▸ (linked_damage h.swap hok i).swap

theorem linked_start (n m : Nat) : Linked (Sys.start n m) := by
  have hc : ∀ a b, Channel (Peer.start a b) (Peer.start b a) [] [] := fun a b =>
    ⟨.quiet (fun _ hd => by cases hd) rfl rfl rfl, fun _ _ hm => absurd hm List.not_mem_nil⟩
  exact ⟨hc n m, hc m n⟩

/-- in a run whose events are all allowed, the blocks returned at either side are in every state the
blocks passed at the other one, and `BlockSend` has returned true only for blocks that were accepted -/
theorem delivered_of_allowed (n m : Nat) (events : List Event) (s : Sys)
    (hok : Along step Allowed events (Sys.start n m)) (h : run step events (Sys.start n m) = some s) :
    Agrees s.here s.there ∧ Agrees s.there s.here := by
  have hl := run_invariant linked_step events _ s (linked_start n m) hok h
  exact ⟨hl.out.agrees, hl.back.agrees⟩

/-! ## one block after the other -/

section
variable (data : List UInt8)

/-- a block is sent, received and acknowledged -/
def exchange : List Event :=
  [.here (.blockSend data 0), .there .waitReceive, .there (.receive data.length 0 true), .here (.reply 0)]

/-- the peers after `k` exchanges -/
def exchanged (k : Nat) : Sys :=
  ⟨⟨.idle, k, 0, sdataNAK, List.replicate k data, List.replicate k data, []⟩,
   ⟨.idle, 0, k, if k = 0 then sdataNAK else sdataACK, [], [], List.replicate k data⟩, [], []⟩

theorem replicate_snoc (k : Nat) : List.replicate k data ++ [data] = List.replicate (k + 1) data :=
  List.replicate_succ'.symm

theorem run_exchange {k : Nat} (hk : k < 2 ^ 16) :
    run step (exchange data) (exchanged data k) = some (exchanged data (k + 1)) := by
  have hmod : k % 65536 = k := Nat.mod_eq_of_lt hk
  have hnext : next k = k + 1 := by
    rw [next]
    omega
  simp [exchange, exchanged, run, step, Sys.act, Sys.swap, Peer.act, Peer.answer, Peer.arrive,
    Peer.blockReceive, Peer.wire, hmod, hnext, replicate_snoc]

theorem run_exchanges {k : Nat} (hk : k ≤ 2 ^ 16) :
    run step (List.replicate k (exchange data)).flatten (Sys.start 0 0) = some (exchanged data k) := by
  induction k with
  | zero => rfl
  | succ k ih =>
    rw [List.replicate_succ', List.flatten_append, run_append, ih (by omega), List.flatten_singleton]
    exact run_exchange data (by omega)

/-- a block whose number does not fit into two bytes is acknowledged, and not returned -/
theorem run_wrapped {k : Nat} (hk : k % 65536 ≠ k) :
    ∃ s, run step (exchange data) (exchanged data k) = some s ∧
      s.here.confirmed = List.replicate (k + 1) data ∧ s.there.returned = List.replicate k data := by
  have hne : k ≠ k % 65536 := hk.symm
  simp [exchange, exchanged, run, step, Sys.act, Sys.swap, Peer.act, Peer.answer, Peer.arrive,
    Peer.blockReceive, Peer.wire, hne, replicate_snoc]

end

/-- from the start, 65537 blocks one after the other on undamaged lines: the last one is confirmed, and is
not returned -/
theorem wrapped_block_lost : ∃ events s, run step events (Sys.start 0 0) = some s ∧
    ¬ Agrees s.here s.there := by
  obtain ⟨s, hrun, hconf, hret⟩ := run_wrapped [1] (k := 2 ^ 16) (by decide)
  refine ⟨(List.replicate (2 ^ 16) (exchange [1])).flatten ++ exchange [1], s, ?_, fun h => ?_⟩
  · rw [run_append, run_exchanges [1] (Nat.le_refl _)]
    exact hrun
  · have hle := h.confirmed.length_le
    rw [hconf, hret, List.length_replicate, List.length_replicate] at hle
    exact Nat.not_succ_le_self _ hle

/-- the first block of a link -/
theorem exchange_agrees : Agrees (exchanged [1] 1).here (exchanged [1] 1).there := by
  have hok : Along step Allowed (exchange [1]) (Sys.start 0 0) := by
    refine ⟨⟨by decide, noAck_nil⟩, fun s hs => ?_⟩
    cases hs
    refine ⟨trivial, fun s hs => ?_⟩
    cases hs
    refine ⟨fun blkno data he _ hne => ?_, fun s hs => ?_⟩
    · cases he
      exact absurd rfl hne
    cases hs
    refine ⟨fun he => ?_, fun s hs => trivial⟩
    cases he
  exact (delivered_of_allowed 0 0 (exchange [1]) (exchanged [1] 1) hok rfl).1

end SerLink
