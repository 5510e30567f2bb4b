import Wedb.Stream.Runs
import Wedb.Stream.Group

/-!
# Runs with consumer groups

Reading through a group writes records of the group and leaves the log alone. As long as
nothing was ever deleted the stream counts its entries, and a group whose number of
entries read is unknown reports either an exact lag or none.
-/

namespace Wedb

variable {s : Store} {kc : KeyComposer} {key : Key} {m : StreamMeta} {xs : EntryLog}
  {now version : UInt64} {id lastId : StreamId} {ops : Batch}

/-! ## Writes beside the log -/

/-- The operation writes a record of a group. -/
def GroupOp (kc : KeyComposer) (key : Key) (o : WriteOp) : Prop :=
  o.partition = .data ∧ ∃ tag suffix, tag.isFramed = true ∧ tag ≠ .streamData ∧
    o.key = Addr.phys ⟨kc, key, .sub tag suffix⟩

theorem GroupOp.owned {o : WriteOp} (h : GroupOp kc key o) : o.OwnedBy kc key .streamMeta := by
  obtain ⟨hp, tag, suffix, hframed, -, hk⟩ := h
  exact ownedBy_sub tag hframed hp hk

theorem metadata_apply_of_groupOp (hops : ∀ o ∈ ops, GroupOp kc key o) :
    (s.apply ops).metadata.get (streamMetaKey kc key) = s.metadata.get (streamMetaKey kc key) := by
  refine Store.part_apply_get_of_forall_ne (p := .metadata) fun o ho hhit => ?_
  rw [(hops o ho).1] at hhit
  cases hhit.1

theorem entries_apply_of_groupOp (hops : ∀ o ∈ ops, GroupOp kc key o) :
    (s.apply ops).family kc key .streamData = s.family kc key .streamData := by
  refine Store.family_apply_of_slots rfl fun o ho => ?_
  obtain ⟨hp, tag, suffix, hframed, hne, hk⟩ := hops o ho
  refine ⟨.sub tag suffix, hframed, hp.symm, hk.symm, fun suffix' heq => hne ?_⟩
  cases heq
  rfl

theorem StreamHolds.apply_group (h : StreamHolds s kc key xs lastId)
    (hops : ∀ o ∈ ops, GroupOp kc key o) : StreamHolds (s.apply ops) kc key xs lastId := by
  obtain ⟨honly, hrep⟩ := h
  refine ⟨honly.apply fun o ho => (hops o ho).owned, ?_⟩
  cases hrep with
  | absent hget hfam =>
    exact .absent ((metadata_apply_of_groupOp hops).trans hget)
      ((entries_apply_of_groupOp hops).trans hfam)
  | present hget hlog hl =>
    exact .present ((metadata_apply_of_groupOp hops).trans hget)
      (by rwa [entries_apply_of_groupOp hops]) hl

theorem streamGroupMeta_eq_phys (kc : KeyComposer) (key : Key) (group : String) :
    streamGroupMeta kc key group = Addr.phys ⟨kc, key, .sub .streamGroup (textBytes group)⟩ := by
  rw [Addr.phys_sub, streamGroupMeta, KeyComposer.composeSubkeyStack_eq]

theorem groupOp_group (group : String) (v : Bytes) :
    GroupOp kc key (.insertData (streamGroupMeta kc key group) v) :=
  ⟨rfl, .streamGroup, _, rfl, by simp, streamGroupMeta_eq_phys kc key group⟩

/-- The operation writes a record of a consumer or of a pending entry. -/
def ReaderOp (kc : KeyComposer) (key : Key) (o : WriteOp) : Prop :=
  o.partition = .data ∧ ∃ tag suffix, (tag = .streamConsumer ∨ tag = .streamPel) ∧
    o.key = Addr.phys ⟨kc, key, .sub tag suffix⟩

theorem ReaderOp.groupOp {o : WriteOp} (h : ReaderOp kc key o) : GroupOp kc key o := by
  obtain ⟨hp, tag, suffix, htag, hk⟩ := h
  refine ⟨hp, tag, suffix, ?_, ?_, hk⟩
  · rcases htag with rfl | rfl <;> rfl
  · rcases htag with rfl | rfl <;> simp

theorem groups_apply_of_readerOp (hops : ∀ o ∈ ops, ReaderOp kc key o) :
    (s.apply ops).family kc key .streamGroup = s.family kc key .streamGroup := by
  refine Store.family_apply_of_slots rfl fun o ho => ?_
  obtain ⟨hp, tag, suffix, htag, hk⟩ := hops o ho
  refine ⟨.sub tag suffix, ?_, hp.symm, hk.symm, fun suffix' heq => ?_⟩
  · rcases htag with rfl | rfl <;> rfl
  · cases heq
    rcases htag with htag | htag <;> cases htag

theorem composeOppvSubkeyStack_eq_phys (kc : KeyComposer) (key : Key) (tag : KeyTag) (mid sub : Bytes) :
    kc.composeOppvSubkeyStack tag.asSlice key.bytes mid sub =
      Addr.phys ⟨kc, key, .sub tag (encodeOppvU64 (KeyComposer.keyLen mid) ++ mid ++ sub)⟩ := by
  rw [Addr.phys_sub, KeyComposer.composeOppvSubkeyStack_eq]

theorem readerOp_consumer (group consumer : String) (v : Bytes) :
    ReaderOp kc key (.insertData (streamConsumerMeta kc key group consumer) v) :=
  ⟨rfl, .streamConsumer, _, Or.inl rfl, composeOppvSubkeyStack_eq_phys kc key _ _ _⟩

theorem readerOp_pending (group : String) (id : StreamId) (v : Bytes) :
    ReaderOp kc key (.insertData (streamPelItem kc key group id) v) :=
  ⟨rfl, .streamPel, _, Or.inr rfl, composeOppvSubkeyStack_eq_phys kc key _ _ _⟩

theorem readerOp_of_pelPrefix {group : String} {k : Bytes} (h : streamPelPrefix kc key group <+: k)
    (v : Bytes) : ReaderOp kc key (.insertData k v) := by
  obtain ⟨rest, rfl⟩ := h
  have hphys : streamPelPrefix kc key group ++ rest = Addr.phys ⟨kc, key, .sub .streamPel
      (encodeOppvU64 (KeyComposer.keyLen (textBytes group)) ++ textBytes group ++ rest)⟩ := by
    rw [← composeOppvSubkeyStack_eq_phys]
    simp [streamPelPrefix, KeyComposer.composeOppvSubkeyStack]
  exact ⟨rfl, .streamPel, _, Or.inr rfl, hphys⟩

/-! ## Lag -/

/-- What a group's counter says about the entries up to its last id: nothing before an entry
was counted, and after that less than there are. -/
structure GroupReads (xs : EntryLog) (g : StreamConsumerGroupMeta) (acked : Bool) : Prop where
  unknown : acked = false → g.entriesRead = -1
  counted : acked = true → g.entriesRead.toUInt64.toNat + 1 ≤
    (xs.filter fun x => decide (x.1 ≤ g.lastDeliveredId)).length

/-- The stream counts its entries and has lost none. -/
def Undeleted (s : Store) (kc : KeyComposer) (key : Key) (xs : EntryLog) : Prop :=
  ∀ now m, getStreamMeta s kc key now = .ok (some m) →
    m.entriesAdded.toNat = xs.length ∧ m.maxDeletedEntryId = .min

def EntryLog.after (xs : EntryLog) (id : StreamId) : EntryLog := xs.filter fun x => decide (id < x.1)

theorem length_upto_add_after (xs : EntryLog) (id : StreamId) :
    (xs.filter fun x => decide (x.1 ≤ id)).length + (xs.after id).length = xs.length := by
  rw [EntryLog.after, List.length_eq_length_filter_add (l := xs) fun x => decide (x.1 ≤ id)]
  congr 2
  refine List.filter_congr fun x _ => ?_
  by_cases hle : x.1 ≤ id
  · simp [hle]
  · simp [not_le.mp hle]

theorem toInt64_ne_neg_one {x : UInt64} (h : x.toNat < 2 ^ 64 - 1) : x.toInt64 ≠ -1 := by
  intro heq
  have hback : x = (-1 : Int64).toUInt64 := by rw [← heq]; rfl
  rw [hback] at h
  exact absurd h (by decide)

section
variable {g : StreamConsumerGroupMeta} {acked : Bool}

theorem checkLagValid_lastDeliveredId (m : StreamMeta) (g : StreamConsumerGroupMeta) :
    (checkLagValid m g).lastDeliveredId = g.lastDeliveredId := by
  unfold checkLagValid
  dsimp only
  split_ifs <;> rfl

theorem checkLagValid_unknown (hl : StreamLayout m xs) (hs : xs.Pairwise fun x y => x.1 < y.1)
    (hadded : m.entriesAdded.toNat = xs.length) (hdel : m.maxDeletedEntryId = .min)
    (hlen : xs.length < 2 ^ 63) (hread : g.entriesRead = -1)
    (hlag : (checkLagValid m g).lag ≠ invalidLag) :
    (checkLagValid m g).lag.toNat = (xs.after g.lastDeliveredId).length := by
  have hsize : m.entriesAdded = m.base.size := UInt64.toNat_inj.mp (hadded.trans hl.size.symm)
  have hself : m.entriesAdded.satSub m.base.size = 0 := by
    rw [← UInt64.toNat_inj, UInt64.toNat_satSub, hsize, Nat.sub_self]
    rfl
  have hmin : m.maxDeletedEntryId.isMin = true := by rw [hdel]; rfl
  have hbound : m.entriesAdded.toNat < 2 ^ 64 - 1 := by omega
  rw [checkLagValid] at hlag ⊢
  by_cases hzero : m.entriesAdded = 0
  · have hnil : xs = [] := by
      rw [← hl.size_eq_zero, ← hsize, hzero]
    rw [if_pos hzero, hnil]
    rfl
  rw [if_neg hzero, if_neg fun h => h.1 hread] at hlag ⊢
  have hnonempty : ¬(m.base.size = 0 ∧ g.lastDeliveredId < m.lastEntryId) := fun h =>
    hzero (hsize.trans h.1)
  rw [streamEstimateDistanceFromFirstEverEntry, if_neg hzero, if_neg hnonempty] at hlag ⊢
  by_cases hlast : g.lastDeliveredId = m.lastEntryId
  · rw [if_pos hlast] at hlag ⊢
    have hnone : xs.after g.lastDeliveredId = [] := by
      rw [EntryLog.after, List.filter_eq_nil_iff]
      intro x hx
      simpa [hlast] using hl.le_last hs x hx
    simp only [toInt64_ne_neg_one hbound, ne_eq, not_false_eq_true, if_true, hnone]
    rw [UInt64.toNat_satSub]
    exact Nat.sub_self _
  rw [if_neg hlast] at hlag ⊢
  by_cases habove : m.lastEntryId < g.lastDeliveredId
  · rw [if_pos habove] at hlag
    exact absurd rfl hlag
  rw [if_neg habove, if_pos (Or.inl hmin), hself] at hlag ⊢
  by_cases hbelow : g.lastDeliveredId < m.firstEntryId
  · rw [if_pos hbelow] at hlag ⊢
    have hall : xs.after g.lastDeliveredId = xs :=
      List.filter_eq_self.mpr fun x hx => decide_eq_true (hbelow.trans_le (hl.first_le hs x hx))
    rw [hall, if_pos (by decide), UInt64.toNat_satSub, hadded]
    rfl
  rw [if_neg hbelow] at hlag ⊢
  by_cases hfirst : g.lastDeliveredId = m.firstEntryId
  · rw [if_pos hfirst] at hlag ⊢
    have hrest := length_above_first hs hl.first
    rw [if_pos (by decide), UInt64.toNat_satSub, hadded, EntryLog.after, hfirst, hrest]
    rfl
  · rw [if_neg hfirst] at hlag
    exact absurd rfl hlag

theorem checkLagValid_counted (hadded : m.entriesAdded.toNat = xs.length)
    (hdel : m.maxDeletedEntryId = .min) (hlen : xs.length < 2 ^ 63)
    (hread : g.entriesRead.toUInt64.toNat + 1 ≤
      (xs.filter fun x => decide (x.1 ≤ g.lastDeliveredId)).length) :
    (checkLagValid m g).lag ≠ invalidLag ∧
      (checkLagValid m g).lag.toNat ≠ (xs.after g.lastDeliveredId).length := by
  have hsplit := length_upto_add_after xs g.lastDeliveredId
  have hzero : m.entriesAdded ≠ 0 := by
    intro hzero
    rw [hzero] at hadded
    have hlen0 : xs.length = 0 := hadded.symm
    omega
  have hknown : g.entriesRead ≠ -1 := by
    intro hneg
    rw [hneg] at hread
    have hval : (-1 : Int64).toUInt64.toNat = 2 ^ 64 - 1 := by decide
    omega
  have htomb : streamRangeHasTombstones m g.lastDeliveredId = false := by
    have hmin : m.maxDeletedEntryId.isMin = true := by rw [hdel]; rfl
    rw [streamRangeHasTombstones, if_pos (Or.inr hmin)]
  have hlag : (checkLagValid m g).lag.toNat = xs.length - g.entriesRead.toUInt64.toNat := by
    rw [checkLagValid, if_neg hzero, if_pos ⟨hknown, htomb⟩, UInt64.toNat_satSub, hadded]
  refine ⟨fun hinvalid => ?_, by omega⟩
  rw [hinvalid] at hlag
  have hval : invalidLag.toNat = 2 ^ 64 - 1 := by decide
  omega

end

/-! ## Delivering -/

section
variable {g : StreamConsumerGroupMeta} {acked noack : Bool} {group consumer : String}

/-- What delivering ids does to a group. -/
structure Delivers (kc : KeyComposer) (key : Key) (noack : Bool) (ids : List StreamId)
    (d d' : Delivery) : Prop where
  above : ∀ id ∈ ids, id ≤ d'.maxId
  grows : d.maxId ≤ d'.maxId
  last : d'.group.lastDeliveredId = d.group.lastDeliveredId
  read : d'.group.entriesRead.toUInt64 =
    d.group.entriesRead.toUInt64 + UInt64.ofNat (if noack then 0 else ids.length)
  ops : ∃ more, d'.ops = d.ops ++ more ∧ ∀ o ∈ more, ReaderOp kc key o

theorem Delivery.step_delivers (d : Delivery) (id : StreamId) :
    Delivers kc key noack [id] d (Delivery.step kc key now group consumer noack d id) := by
  have hmax : id ≤ (if d.maxId < id then id else d.maxId) ∧
      d.maxId ≤ if d.maxId < id then id else d.maxId := by
    split_ifs with hlt
    · exact ⟨le_rfl, hlt.le⟩
    · exact ⟨not_lt.mp hlt, le_rfl⟩
  have habove : ∀ id' ∈ [id], id' ≤ if d.maxId < id then id else d.maxId := by
    intro id' hid
    rw [List.mem_singleton.mp hid]
    exact hmax.1
  cases noack with
  | true =>
    exact ⟨habove, hmax.2, rfl, (UInt64.add_zero _).symm, [], (List.append_nil _).symm, by simp⟩
  | false =>
    refine ⟨habove, hmax.2, rfl, rfl, _, rfl, fun o ho => ?_⟩
    rw [List.mem_singleton.mp ho]
    exact readerOp_pending group id _

theorem Delivery.foldl_delivers (ids : List StreamId) (d : Delivery) :
    Delivers kc key noack ids d
      (ids.foldl (Delivery.step kc key now group consumer noack) d) := by
  induction ids generalizing d with
  | nil =>
    exact ⟨by simp, le_rfl, rfl, by simp, [], (List.append_nil _).symm, by simp⟩
  | cons id ids ih =>
    have hone := @Delivery.step_delivers kc key now noack group consumer d id
    have hrest := ih (Delivery.step kc key now group consumer noack d id)
    rw [List.foldl_cons]
    refine ⟨?_, hone.grows.trans hrest.grows, hrest.last.trans hone.last, ?_, ?_⟩
    · intro id' hid
      rcases List.mem_cons.mp hid with rfl | hid
      · exact (hone.above _ (by simp)).trans hrest.grows
      · exact hrest.above id' hid
    · rw [hrest.read, hone.read, UInt64.add_assoc, ← UInt64.ofNat_add]
      congr 2
      cases noack <;> simp [Nat.add_comm]
    · obtain ⟨front, hfront, hfrontOps⟩ := hone.ops
      obtain ⟨back, hback, hbackOps⟩ := hrest.ops
      refine ⟨front ++ back, by rw [hback, hfront, List.append_assoc], fun o ho => ?_⟩
      rcases List.mem_append.mp ho with ho | ho
      · exact hfrontOps o ho
      · exact hbackOps o ho

theorem length_upto_delivered {ids : List StreamId} {last next : StreamId} (hle : last ≤ next)
    (hsub : ids.Sublist ((xs.after last).map Prod.fst)) (hids : ∀ id ∈ ids, id ≤ next) :
    (xs.filter fun x => decide (x.1 ≤ last)).length + ids.length ≤
      (xs.filter fun x => decide (x.1 ≤ next)).length := by
  have hkeep : ids = ids.filter fun id => decide (id ≤ next) :=
    (List.filter_eq_self.mpr fun id hid => decide_eq_true (hids id hid)).symm
  have hlen : ids.length ≤ ((xs.after last).filter fun x => decide (x.1 ≤ next)).length := by
    have hfilter := (hsub.filter fun id => decide (id ≤ next)).length_le
    rw [← hkeep, List.filter_map, List.length_map] at hfilter
    exact hfilter
  have hsplit := List.length_eq_length_filter_add
    (l := xs.filter fun x => decide (x.1 ≤ next)) fun x => decide (x.1 ≤ last)
  have hlow : (xs.filter fun x => decide (x.1 ≤ next)).filter (fun x => decide (x.1 ≤ last)) =
      xs.filter fun x => decide (x.1 ≤ last) := by
    rw [List.filter_filter]
    refine List.filter_congr fun x _ => ?_
    by_cases hx : x.1 ≤ last
    · simp [hx, hx.trans hle]
    · simp [hx]
  have hhigh : (xs.filter fun x => decide (x.1 ≤ next)).filter (fun x => !decide (x.1 ≤ last)) =
      (xs.after last).filter fun x => decide (x.1 ≤ next) := by
    rw [EntryLog.after, List.filter_filter, List.filter_filter]
    refine List.filter_congr fun x _ => ?_
    by_cases hx : x.1 ≤ last
    · simp [hx]
    · simp [hx, not_le.mp hx, Bool.and_comm]
  rw [hlow, hhigh] at hsplit
  omega

theorem GroupReads.mono (h : GroupReads xs g acked) (ys : EntryLog) : GroupReads (xs ++ ys) g acked := by
  refine ⟨h.unknown, fun hacked => (h.counted hacked).trans ?_⟩
  rw [List.filter_append, List.length_append]
  exact Nat.le_add_right _ _

/-- Delivering new entries keeps what the counter says, and counts unless acknowledgement is
waived. -/
theorem GroupReads.deliver (h : GroupReads xs g acked) {d d' : Delivery} {ids : List StreamId}
    (hd : Delivers kc key noack ids d d') (hread : d.group.entriesRead = g.entriesRead)
    (hlast : d.group.lastDeliveredId = g.lastDeliveredId)
    (hsub : ids.Sublist ((xs.after g.lastDeliveredId).map Prod.fst)) (hlen : xs.length < 2 ^ 63) :
    GroupReads xs (d'.group.advanced d'.maxId) (acked || (!noack && decide (ids ≠ []))) := by
  have hlast' : d'.group.lastDeliveredId = g.lastDeliveredId := hd.last.trans hlast
  have hentries : (d'.group.advanced d'.maxId).entriesRead = d'.group.entriesRead := by
    rw [StreamConsumerGroupMeta.advanced]
    split_ifs <;> rfl
  have hadv : g.lastDeliveredId ≤ (d'.group.advanced d'.maxId).lastDeliveredId ∧
      ∀ id ∈ ids, id ≤ (d'.group.advanced d'.maxId).lastDeliveredId := by
    rw [StreamConsumerGroupMeta.advanced, hlast']
    split_ifs with hlt
    · exact ⟨hlt.le, hd.above⟩
    · rw [hlast']
      exact ⟨le_rfl, fun id hid => (hd.above id hid).trans (not_lt.mp hlt)⟩
  have hcount := length_upto_delivered hadv.1 hsub hadv.2
  have hupto : (xs.filter fun x => decide (x.1 ≤ (d'.group.advanced d'.maxId).lastDeliveredId)).length ≤
      xs.length := List.length_filter_le _ _
  have hval := hd.read
  rw [hread] at hval
  refine ⟨fun hacked => ?_, fun hacked => ?_⟩
  · simp only [Bool.or_eq_false_iff, Bool.and_eq_false_iff, Bool.not_eq_false', decide_eq_false_iff_not,
      not_not] at hacked
    have hnone : (if noack = true then 0 else ids.length) = 0 := by
      rcases hacked.2 with hnoack | hnil
      · rw [if_pos hnoack]
      · rw [hnil, List.length_nil, ite_self]
    rw [hnone, h.unknown hacked.1] at hval
    rw [hentries]
    exact congrArg UInt64.toInt64 (hval.trans (UInt64.add_zero _))
  · rw [hentries, hval]
    cases hbefore : acked with
    | true =>
      have hcounted := h.counted hbefore
      have hn : (if noack = true then 0 else ids.length) ≤ ids.length := by split_ifs <;> omega
      rw [UInt64.toNat_add, UInt64.toNat_ofNat_of_lt' (show _ < 2 ^ 64 by omega),
        Nat.mod_eq_of_lt (by omega)]
      omega
    | false =>
      rw [hbefore] at hacked
      simp only [Bool.false_or, Bool.and_eq_true, Bool.not_eq_true', decide_eq_true_eq] at hacked
      have hpos := List.length_pos_of_ne_nil hacked.2
      have hneg : (-1 : Int64).toUInt64.toNat = 2 ^ 64 - 1 := by decide
      rw [h.unknown hbefore, hacked.1, if_neg Bool.false_ne_true, UInt64.toNat_add, hneg,
        UInt64.toNat_ofNat_of_lt' (show _ < 2 ^ 64 by omega)]
      omega

end

/-! ## Commands -/

section
variable {g : StreamConsumerGroupMeta} {acked noack : Bool} {group consumer lastIdText start : String}
  {count : Option ℕ} {entries : List StreamEntry}

abbrev groupRecords (s : Store) (kc : KeyComposer) (key : Key) : SortedMap Bytes Bytes :=
  s.family kc key .streamGroup

theorem groupRecords_get (s : Store) (group : String) :
    (groupRecords s kc key).get (textBytes group) = s.data.get (streamGroupMeta kc key group) := by
  rw [Store.get_family, streamGroupMeta_eq_phys]
  rfl

theorem groupRecords_insert (s : Store) (group : String) (v : Bytes) :
    groupRecords (s.applyOp (.insertData (streamGroupMeta kc key group) v)) kc key =
      (groupRecords s kc key).insert (textBytes group) v := by
  rw [streamGroupMeta_eq_phys]
  exact Store.family_insert s kc key .streamGroup (textBytes group) v

theorem streamMeta_encode_injective {m m' : StreamMeta} (h : m.encode = m'.encode)
    (htype : m.base.rtype = .stream) : m' = m := by
  have hbase : ∀ m : StreamMeta, KeyMeta.decode m.encode = some m.base := fun m =>
    KeyMeta.decode_encode_append m.base _
  have hsame : some m.base = some m'.base := by rw [← hbase m, ← hbase m', h]
  have htype' : m'.base.rtype = .stream := by rw [← Option.some.inj hsame, htype]
  have hdecode := StreamMeta.decode_encode htype'
  rw [← h, StreamMeta.decode_encode htype] at hdecode
  exact (Option.some.inj hdecode).symm

theorem StreamHolds.getStreamMeta_of_get (h : StreamHolds s kc key xs lastId)
    (hget : s.metadata.get (streamMetaKey kc key) = some m.encode) (now : UInt64) :
    getStreamMeta s kc key now = .ok (some m) := by
  obtain ⟨honly, hrep⟩ := h
  cases hrep with
  | absent hnone => rw [hnone] at hget; cases hget
  | present hsome hlog hl =>
    rw [hsome] at hget
    rw [streamMeta_encode_injective (Option.some.inj hget) hl.rtype]
    exact getStreamMeta_present honly hsome hl now

theorem StreamHolds.found_ne_none (h : StreamHolds s kc key xs lastId)
    (hget : s.metadata.get (streamMetaKey kc key) = some m.encode) (now : UInt64) :
    getStreamMeta s kc key now ≠ .ok none := by
  rw [h.getStreamMeta_of_get hget now]
  simp

theorem StreamHolds.get_of_found (h : StreamHolds s kc key xs lastId)
    (hget : getStreamMeta s kc key now = .ok (some m)) :
    s.metadata.get (streamMetaKey kc key) = some m.encode := by
  obtain ⟨honly, hrep⟩ := h
  cases hrep with
  | absent hnone =>
    rw [getStreamMeta_absent honly hnone] at hget
    cases hget
  | present hsome hlog hl =>
    rw [getStreamMeta_present honly hsome hl] at hget
    cases hget
    exact hsome

theorem undeleted_of_get (h : StreamHolds s kc key xs lastId)
    (hget : s.metadata.get (streamMetaKey kc key) = some m.encode)
    (hadded : m.entriesAdded.toNat = xs.length) (hdel : m.maxDeletedEntryId = .min) :
    Undeleted s kc key xs := by
  intro now m' hget'
  rw [h.getStreamMeta_of_get hget now] at hget'
  cases hget'
  exact ⟨hadded, hdel⟩

theorem StreamLayout.groupNumber (h : StreamLayout m xs) (groupNumber : UInt64) :
    StreamLayout { m with groupNumber } xs :=
  ⟨h.rtype, h.expireAt, h.size, h.first, h.last, h.bounded, h.within⟩

theorem commit_group (honly : HoldsOnly s kc key .streamMeta)
    (hlog : LogIn encodeId xs (s.family kc key .streamData)) (hl : StreamLayout m xs) (group : String)
    (v : Bytes) (groupNumber : UInt64) {t : Store}
    (ht : t = s.apply [.insertData (streamGroupMeta kc key group) v,
      .insertMeta (streamMetaKey kc key) { m with groupNumber }.encode]) :
    StreamHolds t kc key xs m.lastGeneratedId ∧
      t.metadata.get (streamMetaKey kc key) = some { m with groupNumber }.encode ∧
      groupRecords t kc key = (groupRecords s kc key).insert (textBytes group) v := by
  have hops : ∀ o ∈ [WriteOp.insertData (streamGroupMeta kc key group) v], GroupOp kc key o := by
    intro o ho
    rw [List.mem_singleton.mp ho]
    exact groupOp_group group v
  have honly' := honly.apply fun o ho => (hops o ho).owned
  have hlog' := hlog
  rw [← entries_apply_of_groupOp hops] at hlog'
  have hnone : ∀ o ∈ ([] : Batch), EntryOp kc key o := List.forall_mem_nil _
  have hcommit := StreamHolds.commit honly' hnone hlog' (hl.groupNumber groupNumber)
  subst ht
  refine ⟨hcommit, SortedMap.get_insert_self _ _ _, ?_⟩
  have hmeta : groupRecords (s.apply [.insertData (streamGroupMeta kc key group) v,
      .insertMeta (streamMetaKey kc key) { m with groupNumber }.encode]) kc key =
      groupRecords (s.applyOp (.insertData (streamGroupMeta kc key group) v)) kc key := by
    rw [Store.apply_cons, Store.apply_cons, Store.apply_nil]
    exact Store.family_applyOp_of_metadata rfl
  rw [hmeta, groupRecords_insert]

/-- Creating a group stores a record that has read nothing known and leaves the log. -/
theorem streamGroupCreate_spec (h : StreamHolds s kc key xs lastId)
    {mkstream : Bool} {entriesRead : Option Int64} {u : Unit}
    (hrun : streamGroupCreate s kc key now version group lastIdText mkstream entriesRead = .ok (u, ops)) :
    StreamHolds (s.apply ops) kc key xs lastId ∧
      (Undeleted s kc key xs → Undeleted (s.apply ops) kc key xs) ∧
      (∀ now, getStreamMeta (s.apply ops) kc key now ≠ .ok none) ∧
      (groupRecords s kc key).get (textBytes group) = none ∧
      ∃ found lastDeliveredId, getStreamMeta s kc key now = .ok found ∧
        groupRecords (s.apply ops) kc key =
          (if found.isNone then ∅ else groupRecords s kc key).insert (textBytes group)
            (StreamConsumerGroupMeta.encode { lastDeliveredId, entriesRead := entriesRead.getD (-1) }) := by
  have hfree : ¬s.data.contains (streamGroupMeta kc key group) = true →
      (groupRecords s kc key).get (textBytes group) = none := by
    intro hfree
    rw [groupRecords_get]
    exact SortedMap.contains_eq_false.mp (Bool.not_eq_true _ ▸ hfree)
  rw [streamGroupCreate] at hrun
  rcases h.lookup now with ⟨hget, -, -, rfl, rfl⟩ | ⟨m, hget, hl, hlog, rfl⟩
  · rw [hget] at hrun
    simp only [bind, Except.bind, Option.isNone_none, Bool.true_and, Option.getD_none, if_true] at hrun
    obtain ⟨honly, hclean⟩ := cleanStreamResidue_spec h.only
    have hlog : LogIn encodeId ([] : EntryLog)
        ((s.apply (cleanStreamResidue s kc key)).family kc key .streamData) := by
      rw [hclean]
      exact .nil encodeId
    have hgroups : groupRecords (s.apply (cleanStreamResidue s kc key)) kc key = ∅ :=
      cleanStreamResidue_family s rfl (by decide)
    by_cases hmk : (!mkstream) = true
    · rw [if_pos hmk] at hrun
      cases hrun
    rw [if_neg hmk] at hrun
    by_cases hbusy : s.data.contains (streamGroupMeta kc key group) = true
    · rw [if_pos hbusy] at hrun
      cases hrun
    rw [if_neg hbusy] at hrun
    obtain ⟨lastDeliveredId, hlast, hx⟩ := map_eq_ok hrun
    cases hx
    obtain ⟨hholds, hmeta, hrecords⟩ := commit_group honly hlog (streamLayout_new version) group _ _ rfl
    rw [← Store.apply_append] at hholds hmeta hrecords
    rw [hgroups] at hrecords
    exact ⟨hholds, fun _ => undeleted_of_get hholds hmeta rfl rfl, hholds.found_ne_none hmeta, hfree hbusy, none,
      _, hget, hrecords⟩
  · rw [hget] at hrun
    simp only [bind, Except.bind, Option.isNone_some, Bool.false_and, Bool.false_eq_true, if_false,
      Option.getD_some] at hrun
    by_cases hbusy : s.data.contains (streamGroupMeta kc key group) = true
    · rw [if_pos hbusy] at hrun
      cases hrun
    rw [if_neg hbusy] at hrun
    obtain ⟨lastDeliveredId, hlast, hx⟩ := map_eq_ok hrun
    cases hx
    obtain ⟨hholds, hmeta, hrecords⟩ := commit_group h.only hlog hl group _ _ rfl
    refine ⟨hholds, fun hund => ?_, hholds.found_ne_none hmeta, hfree hbusy, some m, _, hget, hrecords⟩
    obtain ⟨hadded, hdel⟩ := hund now m hget
    exact undeleted_of_get hholds hmeta hadded hdel

theorem commit_readgroup {front : Batch} (hfront : ∀ o ∈ front, ReaderOp kc key o) (s : Store)
    (group consumer : String) (g : StreamConsumerGroupMeta) (c : StreamConsumerMeta)
    (hops : ops = front ++ [.insertData (streamGroupMeta kc key group) g.encode,
      .insertData (streamConsumerMeta kc key group consumer) c.encode]) :
    (∀ o ∈ ops, GroupOp kc key o) ∧
      groupRecords (s.apply ops) kc key = (groupRecords s kc key).insert (textBytes group) g.encode := by
  subst hops
  constructor
  · intro o ho
    rcases List.mem_append.mp ho with ho | ho
    · exact (hfront o ho).groupOp
    · simp only [List.mem_cons, List.not_mem_nil, or_false] at ho
      rcases ho with rfl | rfl
      · exact groupOp_group group _
      · exact (readerOp_consumer group consumer _).groupOp
  · have hconsumer : ∀ o ∈ [WriteOp.insertData (streamConsumerMeta kc key group consumer) c.encode],
        ReaderOp kc key o := by
      intro o ho
      rw [List.mem_singleton.mp ho]
      exact readerOp_consumer group consumer _
    have hlast := groups_apply_of_readerOp (s := (s.apply front).applyOp
      (.insertData (streamGroupMeta kc key group) g.encode)) hconsumer
    rw [Store.apply_append, Store.apply_cons, groupRecords, hlast, ← groupRecords, groupRecords_insert,
      groupRecords, groups_apply_of_readerOp hfront]

theorem pendingLoop_ops (consumer : String) (startId : StreamId) (count : Option ℕ) (group : String)
    {found : List StreamEntry × Batch} {items : List (Bytes × Bytes)}
    (hitems : ∀ x ∈ items, streamPelPrefix kc key group <+: x.1)
    (hfound : ∀ o ∈ found.2, ReaderOp kc key o) :
    ∀ o ∈ (pendingLoop s kc key now consumer startId count (streamPelPrefix kc key group) items found).2,
      ReaderOp kc key o := by
  induction items generalizing found with
  | nil => exact hfound
  | cons x items ih =>
    have hrest : ∀ y ∈ items, streamPelPrefix kc key group <+: y.1 := fun y hy => hitems y (by simp [hy])
    rw [pendingLoop]
    split
    · exact ih hrest hfound
    · have hmore : ∀ v : Bytes, ∀ o ∈ found.2 ++ [WriteOp.insertData x.1 v], ReaderOp kc key o := by
        intro v o ho
        rcases List.mem_append.mp ho with ho | ho
        · exact hfound o ho
        · rw [List.mem_singleton.mp ho]
          exact readerOp_of_pelPrefix (hitems x (by simp)) v
      dsimp only
      split_ifs
      · exact hmore _
      · exact ih hrest (hmore _)

theorem answer_after (h : StreamHolds s kc key xs lastId) (last : StreamId) (count : Option ℕ) :
    xs.answer { start := last, count, excludeStart := true } = cutTo count (xs.after last) := by
  have hfilter : (xs.filter fun x => decide
      (StreamRange.Covers { start := last, count, excludeStart := true } x.1)) = xs.after last := by
    refine List.filter_congr fun x hx => ?_
    have hmax : x.1 ≤ .max := by
      rcases h.lookup 0 with ⟨-, -, -, rfl, -⟩ | ⟨m, -, hl, -, -⟩
      · cases hx
      · exact (hl.bounded x hx).trans hl.within
    simp [StreamRange.Covers, StreamRange.low, StreamRange.high, StreamRange.excludesLow,
      StreamRange.excludesHigh, hmax]
  rw [EntryLog.answer, hfilter]
  rfl

def openedGroup (bytes : Bytes) (found : Option Bytes) : StreamConsumerGroupMeta :=
  if found.isNone then { (StreamConsumerGroupMeta.decode bytes).getD {} with
    consumerNumber := ((StreamConsumerGroupMeta.decode bytes).getD {}).consumerNumber + 1 }
  else (StreamConsumerGroupMeta.decode bytes).getD {}

theorem openedGroup_encode (g : StreamConsumerGroupMeta) (found : Option Bytes) :
    (openedGroup g.encode found).entriesRead = g.entriesRead ∧
      (openedGroup g.encode found).lastDeliveredId = g.lastDeliveredId := by
  rw [openedGroup, StreamConsumerGroupMeta.decode_encode]
  split_ifs <;> exact ⟨rfl, rfl⟩

def openedConsumer (now : UInt64) (found : Option Bytes) : StreamConsumerMeta :=
  { (found.bind StreamConsumerMeta.decode).getD {} with
    lastAttemptedInteractionMs := now
    lastSuccessfulInteractionMs := now }

theorem cutTo_sublist {α : Type} (count : Option ℕ) (l : List α) : (cutTo count l).Sublist l := by
  cases count with
  | none => exact List.Sublist.refl l
  | some c => exact List.take_sublist c l

theorem streamReadgroup_spec (h : StreamHolds s kc key xs lastId) (hlen : xs.length < 2 ^ 63)
    (hrun : streamReadgroup s kc key now group consumer start count noack = .ok (entries, ops)) :
    (∀ o ∈ ops, GroupOp kc key o) ∧ (∃ m, getStreamMeta s kc key now = .ok (some m)) ∧
      ∃ bytes g', (groupRecords s kc key).get (textBytes group) = some bytes ∧
      groupRecords (s.apply ops) kc key = (groupRecords s kc key).insert (textBytes group) g'.encode ∧
      ∀ g acked, bytes = g.encode → GroupReads xs g acked → GroupReads xs g'
        (acked || (decide (start = ">") && !noack &&
          decide (cutTo count (xs.after g.lastDeliveredId) ≠ []))) := by
  rw [streamReadgroup] at hrun
  rcases h.lookup now with ⟨hget, -, -, rfl, rfl⟩ | ⟨m, hget, hl, hlog, rfl⟩
  · rw [hget] at hrun
    cases hrun
  rw [hget] at hrun
  simp only [bind, Except.bind, Option.isNone_some, Bool.false_eq_true, if_false] at hrun
  cases hstored : s.data.get (streamGroupMeta kc key group) with
  | none =>
    rw [hstored] at hrun
    cases hrun
  | some bytes =>
    have hrecord : (groupRecords s kc key).get (textBytes group) = some bytes :=
      (groupRecords_get s group).trans hstored
    rw [hstored] at hrun
    simp only at hrun
    obtain ⟨g₁, hg₁⟩ : ∃ g₁, g₁ = openedGroup bytes
        (s.data.get (streamConsumerMeta kc key group consumer)) := ⟨_, rfl⟩
    have hopened : ∀ g : StreamConsumerGroupMeta, bytes = g.encode →
        g₁.entriesRead = g.entriesRead ∧ g₁.lastDeliveredId = g.lastDeliveredId := by
      intro g hbytes
      rw [hg₁, hbytes]
      exact openedGroup_encode g _
    obtain ⟨c₁, hc₁⟩ : ∃ c₁, c₁ = openedConsumer now
        (s.data.get (streamConsumerMeta kc key group consumer)) := ⟨_, rfl⟩
    rw [← openedGroup, ← hg₁, ← openedConsumer, ← hc₁] at hrun
    by_cases hnew : start = ">"
    · rw [if_pos hnew, streamRangeWithOptions_spec h] at hrun
      by_cases hguard : (true && g₁.lastDeliveredId.isMax) = true
      · rw [if_pos hguard] at hrun
        cases hrun
      have hstop : ¬(false && StreamId.max.isMin) = true := by simp
      rw [if_neg hguard, if_neg hstop] at hrun
      cases hrun
      rw [answer_after h, List.map_map]
      have hd := @Delivery.foldl_delivers kc key now noack group consumer
        ((cutTo count (xs.after g₁.lastDeliveredId)).map (Prod.fst ∘ entryOf))
        { group := g₁, consumer := c₁ }
      obtain ⟨more, hmore, hmoreOps⟩ := hd.ops
      obtain ⟨hops, hrecords⟩ := commit_readgroup hmoreOps s group consumer _ _ rfl
      have hqueued := hmore.trans (List.nil_append more)
      rw [← hqueued] at hops hrecords
      refine ⟨hops, ⟨m, hget⟩, bytes, _, hrecord, hrecords, fun g acked hbytes hreads => ?_⟩
      obtain ⟨hread, hlast⟩ := hopened g hbytes
      have hsub : ((cutTo count (xs.after g₁.lastDeliveredId)).map (Prod.fst ∘ entryOf)).Sublist
          ((xs.after g.lastDeliveredId).map Prod.fst) := by
        rw [hlast]
        exact (cutTo_sublist count _).map _
      have hdelivered := hreads.deliver hd hread hlast hsub hlen
      rw [← hlast]
      simpa only [hnew, decide_true, Bool.true_and, ne_eq, List.map_eq_nil_iff] using hdelivered
    · rw [if_neg hnew] at hrun
      obtain ⟨startId, hparse, hx⟩ := map_eq_ok hrun
      cases hx
      have hfront := @pendingLoop_ops s kc key now consumer startId count group ([], [])
        (SortedMap.prefixed (streamPelPrefix kc key group) s.data)
        (fun x hx => (SortedMap.mem_prefixed.mp hx).1) (List.forall_mem_nil _)
      obtain ⟨hops, hrecords⟩ := commit_readgroup hfront s group consumer g₁ _ rfl
      refine ⟨hops, ⟨m, hget⟩, bytes, g₁, hrecord, hrecords, fun g acked hbytes hreads => ?_⟩
      obtain ⟨hread, hlast⟩ := hopened g hbytes
      simp only [hnew, decide_false, Bool.false_and, Bool.or_false]
      exact ⟨fun ha => hread.trans (hreads.unknown ha), fun ha => by
        rw [hread, hlast]
        exact hreads.counted ha⟩

/-- The operation writes an entry or the metadata. -/
def AddOp (kc : KeyComposer) (key : Key) (o : WriteOp) : Prop :=
  EntryOp kc key o ∨ o.partition = .metadata

theorem groupRecords_applyOp_of_addOp {o : WriteOp} (ho : AddOp kc key o) :
    groupRecords (s.applyOp o) kc key = groupRecords s kc key := by
  rcases ho with ⟨id, hp, hk⟩ | hp
  · refine Store.family_applyOp_of_slot (.sub .streamData (encodeId id)) rfl hp.symm ?_ rfl ?_
    · rw [hk, streamItem_eq_phys]
    · simp
  · exact Store.family_applyOp_of_metadata hp

theorem groupRecords_apply_of_addOps (hops : ∀ o ∈ ops, AddOp kc key o) :
    groupRecords (s.apply ops) kc key = groupRecords s kc key := by
  induction ops generalizing s with
  | nil => rfl
  | cons o ops ih =>
    rw [Store.apply_cons, ih fun x hx => hops x (by simp [hx]),
      groupRecords_applyOp_of_addOp (hops o (by simp))]

theorem streamAdd_groups (h : StreamHolds s kc key xs lastId) {options : StreamAdd}
    {fields : List (Bytes × Bytes)}
    (hrun : streamAdd s kc key now version options fields = .ok (id, ops)) :
    ∃ found, getStreamMeta s kc key now = .ok found ∧ groupRecords (s.apply ops) kc key =
      if found.isNone then ∅ else groupRecords s kc key := by
  have hentries : ∀ (trimOps : Batch) (add : Bool) (id : StreamId) (payload v : Bytes),
      (∀ o ∈ trimOps, EntryOp kc key o) → ∀ o ∈ trimOps ++ ((if add then
        [WriteOp.insertData (streamItem kc key id) payload] else []) ++
          [.insertMeta (streamMetaKey kc key) v]), AddOp kc key o := by
    intro trimOps add id payload v htrim o ho
    rcases List.mem_append.mp ho with ho | ho
    · exact Or.inl (htrim o ho)
    rcases List.mem_append.mp ho with ho | ho
    · cases add with
      | false => cases ho
      | true =>
        rw [if_pos rfl, List.mem_singleton] at ho
        rw [ho]
        exact Or.inl ⟨id, rfl, rfl⟩
    · rw [List.mem_singleton.mp ho]
      exact Or.inr rfl
  rw [streamAdd] at hrun
  rcases h.lookup now with ⟨hget, -, -, rfl, rfl⟩ | ⟨m, hget, hl, hlog, rfl⟩
  · rw [hget] at hrun
    simp only [bind, Except.bind, Option.isNone_none, Bool.true_and, Option.getD_none, if_true] at hrun
    by_cases hmk : options.nomkstream = true
    · rw [if_pos hmk] at hrun
      cases hrun
    rw [if_neg hmk] at hrun
    cases hgen : options.nextIdStrategy.generateId (StreamMeta.new 0 version).lastGeneratedId now with
    | error err =>
      rw [hgen] at hrun
      cases hrun
    | ok id' =>
      obtain ⟨n, m', htrim, -⟩ := addTrim_spec (streamLayout_new version)
        (show LogIn encodeId ([] : EntryLog) (s.family kc key .streamData) from h.log) options.trimOptions
      rw [hgen] at hrun
      simp only [htrim] at hrun
      cases hrun
      refine ⟨none, hget, ?_⟩
      rw [Store.apply_append, groupRecords_apply_of_addOps (hentries _ _ _ _ _ (entryOp_rm_take kc key [] n))]
      exact cleanStreamResidue_family s rfl (by decide)
  · rw [hget] at hrun
    simp only [bind, Except.bind, Option.isNone_some, Bool.false_and, Bool.false_eq_true, if_false,
      Option.getD_some] at hrun
    cases hgen : options.nextIdStrategy.generateId m.lastGeneratedId now with
    | error err =>
      rw [hgen] at hrun
      cases hrun
    | ok id' =>
      obtain ⟨n, m', htrim, -⟩ := addTrim_spec hl hlog options.trimOptions
      rw [hgen] at hrun
      simp only [htrim] at hrun
      cases hrun
      refine ⟨some m, hget, ?_⟩
      rw [List.nil_append, groupRecords_apply_of_addOps (hentries _ _ _ _ _ (entryOp_rm_take kc key xs n))]
      rfl

end

end Wedb
