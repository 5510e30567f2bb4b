import Wedb.Bloom.Stored

/-!
# Runs on a bloom filter

A call is a command at a clock value; its writes are committed together and a failed call
changes nothing. The run keeps the items reported as new or present and counts the new ones.
On a key that never existed before the stored filter finds all of them in every state reached,
and a call with several items does what calls with one item each would do.
-/

namespace Wedb

open BlockSplitBloomFilter

section

variable (hash : Bytes → UInt64) (estimate : UInt32 → F64 → Option ℕ) (kc : KeyComposer) (key : Key)

/-- The filter stored under a key finds the items and counts the new ones. -/
inductive BloomRep (s : Store) : List Bytes → ℕ → Prop
  | absent : s.metadata.get (bloomMetaKey kc key) = none →
      (∀ i < 2 ^ 16, s.data.get (bloomItem kc key (UInt16.ofNat i)) = none) → BloomRep s [] 0
  | present {w : BloomWork} {L : List Bytes} {n : ℕ} : BloomStored s kc key w →
      BloomChain hash estimate w L n → BloomRep s L n

/-- The key holds a filter of the items, or nothing. -/
structure BloomHolds (s : Store) (L : List Bytes) (n : ℕ) : Prop where
  only : HoldsOnly s kc key .bloomMeta
  rep : BloomRep hash estimate kc key s L n

end

variable {hash : Bytes → UInt64} {estimate : UInt32 → F64 → Option ℕ} {kc : KeyComposer} {key : Key}
  {s : Store} {w w' : BloomWork} {L : List Bytes} {n : ℕ} {now version : UInt64}

theorem BloomChain.length_lt (h : BloomChain hash estimate w L n) : w.blocks.length < 2 ^ 16 :=
  h.length ▸ w.chain.nFilters.toNat_lt

/-! ## Loading -/

theorem loadWork_stored (hs : BloomStored s kc key w) (hc : BloomChain hash estimate w L n) :
    loadWork estimate s kc key w.chain = w := by
  have hblocks : (loadWork estimate s kc key w.chain).blocks = w.blocks := by
    refine List.ext_getElem? fun i => ?_
    rw [loadWork, List.getElem?_map]
    by_cases hi : i < w.chain.nFilters.toNat
    · have hlen := hc.length
      have hget := List.getElem?_eq_getElem (hlen ▸ hi)
      have hdata := hs.data i (hi.trans w.chain.nFilters.toNat_lt)
      have hsize := hc.sized i _ hget
      rw [hget] at hdata
      rw [List.getElem?_range hi, Option.map_some, loadBlock, hdata, hget]
      dsimp only
      rw [hsize, Nat.sub_self, List.replicate_zero, List.append_nil]
    · rw [List.getElem?_eq_none (by simpa using hi), List.getElem?_eq_none (by rw [hc.length]; omega)]
      rfl
  cases w
  rw [loadWork] at hblocks ⊢
  exact congrArg _ hblocks

theorem loadWork_fresh (hnone : ∀ i < 2 ^ 16, s.data.get (bloomItem kc key (UInt16.ofNat i)) = none)
    (capacity : UInt32) (errorRate : F64) (expansion : UInt16) (version : UInt64) :
    loadWork estimate s kc key (BloomWork.fresh estimate capacity errorRate expansion version).chain =
      .fresh estimate capacity errorRate expansion version := by
  have hone : (1 : UInt16).toNat = 1 := rfl
  have hget := hnone 0 (by decide)
  have hfirst : BloomChainMeta.subFilterCapacity (BloomWork.fresh estimate capacity errorRate expansion
      version).chain (UInt16.ofNat 0) = capacity := by
    simp [BloomWork.fresh, BloomChainMeta.new, BloomChainMeta.subFilterCapacity]
  have hload : loadBlock estimate s kc key (BloomWork.fresh estimate capacity errorRate expansion
      version).chain (UInt16.ofNat 0) =
        List.replicate (optimalNumOfBytes estimate capacity errorRate) 0 := by
    rw [loadBlock, hget, hfirst]
    rfl
  rw [loadWork]
  refine congrArg (BloomWork.mk _) ?_
  have hrange : List.range (BloomWork.fresh estimate capacity errorRate expansion
      version).chain.nFilters.toNat = [0] := rfl
  rw [hrange, List.map_singleton, hload]

theorem getBfMetaChecked_stored (honly : HoldsOnly s kc key .bloomMeta)
    (hs : BloomStored s kc key w) (hc : BloomChain hash estimate w L n) (now : UInt64) :
    getBfMetaChecked s kc key now = .ok (some w.chain) := by
  refine honly.getMetaChecked_present hs.metadata (BloomChainMeta.decode_encode _) ?_
  show KeyMeta.isExpired _ now = false
  rw [KeyMeta.isExpired, KeyMeta.isEmptyableType, hc.rtype, hc.expireAt]
  rfl

theorem checkBloomShape_eq_ok {capacity : UInt32} {errorRate : F64} {u : Unit}
    (h : checkBloomShape capacity errorRate = .ok u) : capacity ≠ 0 := by
  unfold checkBloomShape at h
  split_ifs at h with hcap
  exact hcap

theorem bfMetaForInsert_cases (h : BloomHolds hash estimate kc key s L n) (opt : BloomFilterInsert) :
    (∃ w, BloomStored s kc key w ∧ BloomChain hash estimate w L n ∧
      ∀ now version, bfMetaForInsert estimate s kc key now version opt = .ok w.chain) ∨
    (L = [] ∧ n = 0 ∧ (∀ i < 2 ^ 16, s.data.get (bloomItem kc key (UInt16.ofNat i)) = none) ∧
      ((∃ err, ∀ now version, bfMetaForInsert estimate s kc key now version opt = .error err) ∨
        opt.capacity ≠ 0 ∧ ∀ now version, bfMetaForInsert estimate s kc key now version opt =
          .ok (BloomWork.fresh estimate opt.capacity opt.errorRate opt.expansion version).chain)) := by
  obtain ⟨honly, hrep⟩ := h
  cases hrep with
  | absent hnone hdata =>
    have hget : ∀ now, getBfMetaChecked s kc key now = .ok none := honly.getMetaChecked_absent hnone
    refine .inr ⟨rfl, rfl, hdata, ?_⟩
    unfold bfMetaForInsert
    simp only [hget, bind, Except.bind]
    cases hcreate : opt.autoCreate with
    | false => exact .inl ⟨_, fun _ _ => rfl⟩
    | true =>
      cases hcheck : checkBloomShape opt.capacity opt.errorRate with
      | error err => exact .inl ⟨err, fun _ _ => rfl⟩
      | ok u => exact .inr ⟨checkBloomShape_eq_ok hcheck, fun _ _ => rfl⟩
  | @present w _ _ hs hc =>
    refine .inl ⟨w, hs, hc, fun now version => ?_⟩
    unfold bfMetaForInsert
    rw [getBfMetaChecked_stored honly hs hc now]
    rfl

/-! ## Insertions -/

theorem bfInsert_loaded {m : BloomChainMeta} {items : List Bytes} {options : List BfInsert}
    (hne : items ≠ []) (hmeta : bfMetaForInsert estimate s kc key now version
      (.fromOptions options) = .ok m) (hload : loadWork estimate s kc key m = w)
    {results : List BloomFilterAddResult} (hadd : w.addAll estimate hash items = (results, w')) :
    bfInsert hash estimate s kc key now version items options =
      .ok (results, if results.contains .ok then bloomBatch kc key w' (m.nFilters.toNat - 1) else []) := by
  unfold bfInsert
  rw [if_neg (by simpa using hne)]
  simp only [hmeta, hload, hadd, bind, Except.bind]
  split_ifs <;> rfl

theorem bfInsert_stored (honly : HoldsOnly s kc key .bloomMeta) (hs : BloomStored s kc key w)
    (hc : BloomChain hash estimate w L n) {items : List Bytes} (hne : items ≠ [])
    {results : List BloomFilterAddResult} (hadd : w.addAll estimate hash items = (results, w'))
    (now version : UInt64) (options : List BfInsert) :
    ∃ ops, bfInsert hash estimate s kc key now version items options = .ok (results, ops) ∧
      s.apply ops = s.putChain kc key w' ∧ BloomStored (s.apply ops) kc key w' ∧
      HoldsOnly (s.apply ops) kc key .bloomMeta := by
  have hmeta : bfMetaForInsert estimate s kc key now version (.fromOptions options) =
      .ok w.chain := by
    unfold bfMetaForInsert
    rw [getBfMetaChecked_stored honly hs hc now]
    rfl
  obtain ⟨hc', hgrows, -, hsame⟩ := hc.addAll items hadd
  refine ⟨_, bfInsert_loaded hne hmeta (loadWork_stored hs hc) hadd, ?_⟩
  cases hok : results.contains .ok with
  | true =>
    rw [if_pos rfl, ← hc.length]
    obtain ⟨hstored, heq⟩ := hs.apply_suffix hgrows hc'.length_lt
    exact ⟨heq, hstored, honly.apply bloomBatch_owned⟩
  | false =>
    rw [hsame hok, if_neg (by simp)]
    exact ⟨(hs.putChain_self hc.length_lt).symm, hs, honly⟩

theorem bfInsert_fresh (honly : HoldsOnly s kc key .bloomMeta)
    (hnone : ∀ i < 2 ^ 16, s.data.get (bloomItem kc key (UInt16.ofNat i)) = none)
    {options : List BfInsert} {opt : BloomFilterInsert} (hopt : .fromOptions options = opt)
    (hcap : opt.capacity ≠ 0)
    (hmeta : bfMetaForInsert estimate s kc key now version opt =
      .ok (BloomWork.fresh estimate opt.capacity opt.errorRate opt.expansion version).chain)
    (item : Bytes) (items : List Bytes) {results : List BloomFilterAddResult}
    (hadd : (BloomWork.fresh estimate opt.capacity opt.errorRate opt.expansion version).addAll estimate
      hash (item :: items) = (results, w')) :
    ∃ ops, bfInsert hash estimate s kc key now version (item :: items) options = .ok (results, ops) ∧
      s.apply ops = s.putChain kc key w' ∧ BloomStored (s.apply ops) kc key w' ∧
      HoldsOnly (s.apply ops) kc key .bloomMeta := by
  subst hopt
  have hc := @bloomChain_fresh hash estimate (BloomFilterInsert.fromOptions options).capacity
    (BloomFilterInsert.fromOptions options).errorRate (BloomFilterInsert.fromOptions options).expansion
    version
  obtain ⟨hc', -⟩ := hc.addAll (item :: items) hadd
  have hok : results.contains .ok = true := by
    rw [BloomWork.addAll] at hadd
    dsimp only at hadd
    obtain ⟨rfl, -⟩ := Prod.mk.inj hadd
    rw [add_fresh _ _ _ hcap]
    simp
  refine ⟨_, bfInsert_loaded (List.cons_ne_nil _ _) hmeta (loadWork_fresh hnone _ _ _ _) hadd, ?_⟩
  rw [if_pos hok]
  exact ⟨rfl, bloomStored_putChain hc'.length_lt hnone, honly.apply bloomBatch_owned⟩

/-! ## One by one -/

section

variable (hash : Bytes → UInt64) (estimate : UInt32 → F64 → Option ℕ) (kc : KeyComposer) (key : Key)

/-- The items in calls of their own, each with the clock it reads and the version it would
generate. -/
def insertEach (options : List BfInsert) : List (Bytes × UInt64 × UInt64) → Store →
    List (Except Error (List BloomFilterAddResult)) × Store
  | [], s => ([], s)
  | (item, now, version) :: calls, s =>
      match bfInsert hash estimate s kc key now version [item] options with
      | .ok (results, ops) =>
          let (rest, t) := insertEach options calls (s.apply ops)
          (.ok results :: rest, t)
      | .error err =>
          let (rest, t) := insertEach options calls s
          (.error err :: rest, t)

/-- A call with several items does what calls with one item each do. -/
def BatchAsEach (s : Store) : Prop :=
  ∀ (options : List BfInsert) (item : Bytes) (now now' version : UInt64)
    (calls : List (Bytes × UInt64 × UInt64)),
    match bfInsert hash estimate s kc key now version (item :: calls.map Prod.fst) options with
    | .ok (results, ops) =>
        insertEach hash estimate kc key options ((item, now', version) :: calls) s =
          (results.map fun r => .ok [r], s.apply ops)
    | .error err =>
        insertEach hash estimate kc key options ((item, now', version) :: calls) s =
          ((item :: calls.map Prod.fst).map fun _ => .error err, s)

end

theorem insertEach_stored (options : List BfInsert) (calls : List (Bytes × UInt64 × UInt64))
    (honly : HoldsOnly s kc key .bloomMeta) (hs : BloomStored s kc key w)
    (hc : BloomChain hash estimate w L n) {results : List BloomFilterAddResult}
    (hadd : w.addAll estimate hash (calls.map Prod.fst) = (results, w')) :
    insertEach hash estimate kc key options calls s =
      (results.map fun r => .ok [r], s.putChain kc key w') := by
  induction calls generalizing s w L n results with
  | nil =>
    obtain ⟨rfl, rfl⟩ := Prod.mk.inj hadd
    rw [insertEach, hs.putChain_self hc.length_lt]
    rfl
  | cons call calls ih =>
    obtain ⟨item, now, version⟩ := call
    obtain ⟨r, w₁, hfirst⟩ : ∃ r w₁, w.add estimate (hash item) = (r, w₁) := ⟨_, _, rfl⟩
    obtain ⟨rest, w₂, hrest⟩ : ∃ rest w₂, w₁.addAll estimate hash (calls.map Prod.fst) = (rest, w₂) :=
      ⟨_, _, rfl⟩
    rw [List.map_cons, BloomWork.addAll, hfirst] at hadd
    simp only [hrest] at hadd
    obtain ⟨rfl, rfl⟩ := Prod.mk.inj hadd
    have hone : w.addAll estimate hash [item] = ([r], w₁) := by
      rw [BloomWork.addAll, hfirst]
      rfl
    obtain ⟨ops, hinsert, hput, hstored, honly'⟩ :=
      bfInsert_stored honly hs hc (List.cons_ne_nil _ _) hone now version options
    obtain ⟨hc₁, -⟩ := hc.addAll [item] hone
    obtain ⟨-, hgrows, -⟩ := hc₁.addAll _ hrest
    have hrestRun := ih honly' hstored hc₁ hrest
    rw [hput, Store.putChain, putChain_absorb hgrows.le] at hrestRun
    rw [insertEach, hinsert]
    simp only
    rw [hput, Store.putChain, hrestRun]
    rfl

theorem insertEach_error {options : List BfInsert} {err : Error}
    (h : ∀ now version, bfMetaForInsert estimate s kc key now version (.fromOptions options) =
      .error err) (calls : List (Bytes × UInt64 × UInt64)) :
    insertEach hash estimate kc key options calls s =
      ((calls.map Prod.fst).map fun _ => .error err, s) := by
  induction calls with
  | nil => rfl
  | cons call calls ih =>
    obtain ⟨item, now, version⟩ := call
    have hinsert : bfInsert hash estimate s kc key now version [item] options = .error err := by
      unfold bfInsert
      rw [if_neg (by simp)]
      simp only [h, bind, Except.bind]
    rw [insertEach, hinsert]
    simp only [ih]
    rfl

theorem BloomHolds.batchAsEach (h : BloomHolds hash estimate kc key s L n) :
    BatchAsEach hash estimate kc key s := by
  intro options item now now' version calls
  rcases bfMetaForInsert_cases h (.fromOptions options) with
    ⟨w, hs, hc, -⟩ | ⟨-, -, hnone, ⟨err, herr⟩ | ⟨hcap, hmeta⟩⟩
  · obtain ⟨results, w', hadd⟩ :
        ∃ results w', w.addAll estimate hash (item :: calls.map Prod.fst) = (results, w') := ⟨_, _, rfl⟩
    obtain ⟨ops, hinsert, hput, -⟩ :=
      bfInsert_stored h.only hs hc (List.cons_ne_nil _ _) hadd now version options
    rw [hinsert]
    dsimp only
    rw [hput]
    exact insertEach_stored options ((item, now', version) :: calls) h.only hs hc hadd
  · have hinsert : bfInsert hash estimate s kc key now version (item :: calls.map Prod.fst) options =
        .error err := by
      unfold bfInsert
      rw [if_neg (by simp)]
      simp only [herr, bind, Except.bind]
    rw [hinsert]
    exact insertEach_error herr ((item, now', version) :: calls)
  · generalize hopt : BloomFilterInsert.fromOptions options = opt at hcap hmeta
    have hc := @bloomChain_fresh hash estimate opt.capacity opt.errorRate opt.expansion version
    obtain ⟨w₁, hfirst⟩ : ∃ w₁, (BloomWork.fresh estimate opt.capacity opt.errorRate opt.expansion
        version).add estimate (hash item) = (.ok, w₁) :=
      ⟨_, Prod.ext (add_fresh _ _ _ hcap _) rfl⟩
    obtain ⟨rest, w₂, hrest⟩ :
        ∃ rest w₂, w₁.addAll estimate hash (calls.map Prod.fst) = (rest, w₂) := ⟨_, _, rfl⟩
    have hone : (BloomWork.fresh estimate opt.capacity opt.errorRate opt.expansion version).addAll
        estimate hash [item] = ([.ok], w₁) := by
      rw [BloomWork.addAll, hfirst]
      rfl
    have hall : (BloomWork.fresh estimate opt.capacity opt.errorRate opt.expansion version).addAll
        estimate hash (item :: calls.map Prod.fst) = (.ok :: rest, w₂) := by
      rw [BloomWork.addAll, hfirst]
      simp only [hrest]
    obtain ⟨ops, hinsert, hput, -⟩ := bfInsert_fresh h.only hnone hopt hcap (hmeta now version) item
      (calls.map Prod.fst) hall
    obtain ⟨ops₁, hinsert₁, hput₁, hstored₁, honly₁⟩ :=
      bfInsert_fresh h.only hnone hopt hcap (hmeta now' version) item [] hone
    obtain ⟨hc₁, -⟩ := hc.addAll [item] hone
    obtain ⟨-, hgrows, -⟩ := hc₁.addAll _ hrest
    have hrestRun := insertEach_stored options calls honly₁ hstored₁ hc₁ hrest
    rw [hput₁, Store.putChain, putChain_absorb hgrows.le] at hrestRun
    rw [hinsert]
    simp only
    rw [hput, insertEach, hinsert₁]
    simp only
    rw [hput₁, Store.putChain, hrestRun]
    rfl

/-! ## Queries -/

theorem bfExistsLoop_iff {h : UInt64} (m : ℕ) : bfExistsLoop s kc key h m = true ↔
    ∃ i < m, (s.data.get (bloomItem kc key (UInt16.ofNat i))).any (fun b => findHash b h) = true := by
  induction m with
  | zero => simp [bfExistsLoop]
  | succ m ih =>
    rw [bfExistsLoop]
    split_ifs with hfound
    · exact iff_of_true rfl ⟨m, Nat.lt_succ_self m, hfound⟩
    · rw [ih]
      constructor
      · rintro ⟨i, hi, hany⟩
        exact ⟨i, Nat.lt_succ_of_lt hi, hany⟩
      · rintro ⟨i, hi, hany⟩
        rcases Nat.lt_succ_iff_lt_or_eq.mp hi with hlt | rfl
        · exact ⟨i, hlt, hany⟩
        · exact absurd hany hfound

theorem BloomChain.stored_block (hs : BloomStored s kc key w) (hc : BloomChain hash estimate w L n)
    {item : Bytes} (hmem : item ∈ L) : ∃ i < w.chain.nFilters.toNat, ∃ b,
      s.data.get (bloomItem kc key (UInt16.ofNat i)) = some b ∧ findHash b (hash item) = true := by
  obtain ⟨b, hb, hfound⟩ := hc.found item hmem
  obtain ⟨i, hi⟩ := List.mem_iff_getElem?.mp hb
  obtain ⟨hlt, -⟩ := List.getElem?_eq_some_iff.mp hi
  have hlt' := hlt.trans hc.length_lt
  exact ⟨i, hc.length ▸ hlt, b, (hs.data i hlt').trans hi, hfound⟩

theorem BloomHolds.bfExists (h : BloomHolds hash estimate kc key s L n) (now : UInt64) {item : Bytes}
    (hmem : item ∈ L) : bfExists hash s kc key now item = .ok true := by
  obtain ⟨honly, hrep⟩ := h
  cases hrep with
  | absent => exact absurd hmem List.not_mem_nil
  | present hs hc =>
    obtain ⟨i, hi, b, hget, hfound⟩ := hc.stored_block hs hmem
    have hloop := (bfExistsLoop_iff _).mpr ⟨i, hi, by rw [hget]; exact hfound⟩
    unfold Wedb.bfExists
    rw [getBfMetaChecked_stored honly hs hc now]
    simp only [bind, Except.bind, hloop]
    rfl

theorem BloomHolds.getBfMetaChecked (h : BloomHolds hash estimate kc key s L n) (now : UInt64) :
    ∃ m?, Wedb.getBfMetaChecked s kc key now = .ok m? := by
  obtain ⟨honly, hrep⟩ := h
  cases hrep with
  | absent hnone => exact ⟨none, honly.getMetaChecked_absent hnone now⟩
  | present hs hc => exact ⟨_, getBfMetaChecked_stored honly hs hc now⟩

theorem BloomHolds.bfExists_total (h : BloomHolds hash estimate kc key s L n) (now : UInt64)
    (item : Bytes) : ∃ found, Wedb.bfExists hash s kc key now item = .ok found := by
  obtain ⟨m?, hget⟩ := h.getBfMetaChecked now
  unfold Wedb.bfExists
  rw [hget]
  cases m? with
  | none => exact ⟨false, rfl⟩
  | some m => exact ⟨_, rfl⟩

theorem bfMexists_stored (honly : HoldsOnly s kc key .bloomMeta) (hs : BloomStored s kc key w)
    (hc : BloomChain hash estimate w L n) (now : UInt64) (a b : Bytes) (items : List Bytes) :
    bfMexists hash s kc key now (a :: b :: items) =
      .ok ((a :: b :: items).map fun item => w.blocks.reverse.any fun blk =>
        findHash blk (hash item)) := by
  have hblocks : (List.range w.chain.nFilters.toNat).filterMap (fun idx =>
      s.data.get (bloomItem kc key (UInt16.ofNat idx))) = w.blocks := by
    have hmap : (List.range w.chain.nFilters.toNat).filterMap (fun idx =>
        s.data.get (bloomItem kc key (UInt16.ofNat idx))) =
          (List.range w.chain.nFilters.toNat).map fun idx => w.blocks.getD idx [] := by
      refine List.filterMap_eq_map_iff_forall_eq_some.mpr fun i hi => ?_
      have hlt : i < w.blocks.length := hc.length ▸ List.mem_range.mp hi
      rw [hs.data i (hlt.trans hc.length_lt), List.getD_eq_getElem?_getD,
        List.getElem?_eq_getElem hlt, Option.getD_some]
    rw [hmap, ← hc.length]
    refine List.ext_getElem (by simp) fun i hi hi' => ?_
    rw [List.getElem_map, List.getElem_range, List.getD_eq_getElem?_getD,
      List.getElem?_eq_getElem hi', Option.getD_some]
  unfold bfMexists
  dsimp only
  rw [getBfMetaChecked_stored honly hs hc now]
  simp only [bind, Except.bind, hblocks]
  rfl

theorem BloomHolds.bfMexists (h : BloomHolds hash estimate kc key s L n) (now : UInt64)
    (items : List Bytes) : ∃ results, bfMexists hash s kc key now items = .ok results ∧
      ∀ i (hi : i < items.length), items[i] ∈ L → results[i]? = some true := by
  rcases items with - | ⟨a, - | ⟨b, items⟩⟩
  · exact ⟨[], rfl, fun i hi => absurd hi (Nat.not_lt_zero i)⟩
  · obtain ⟨found, hfound⟩ := h.bfExists_total now a
    refine ⟨[found], by rw [Wedb.bfMexists, hfound]; rfl, fun i hi hmem => ?_⟩
    have hzero : i = 0 := by simpa using hi
    subst hzero
    rw [List.getElem_cons_zero] at hmem
    rw [h.bfExists now hmem] at hfound
    rw [Except.ok.inj hfound]
    rfl
  · obtain ⟨honly, hrep⟩ := h
    cases hrep with
    | absent hnone =>
      refine ⟨List.replicate (a :: b :: items).length false, ?_, fun i hi hmem =>
        absurd hmem List.not_mem_nil⟩
      have hget : Wedb.getBfMetaChecked s kc key now = .ok none :=
        honly.getMetaChecked_absent hnone now
      unfold Wedb.bfMexists
      dsimp only
      rw [hget]
      rfl
    | present hs hc =>
      refine ⟨_, bfMexists_stored honly hs hc now a b items, fun i hi hmem => ?_⟩
      obtain ⟨blk, hblk, hfound⟩ := hc.found _ hmem
      rw [List.getElem?_map, List.getElem?_eq_getElem hi, Option.map_some]
      exact congrArg some (List.any_eq_true.mpr ⟨blk, List.mem_reverse.mpr hblk, hfound⟩)

/-! ## Runs -/

inductive BloomCommand
  | reserve (errorRate : F64) (capacity : UInt32) (options : List BfReserve)
  | insert (items : List Bytes) (options : List BfInsert)

/-- A command with the clock it reads and the version it would generate. -/
structure BloomCall where
  nowMs : UInt64
  version : UInt64
  command : BloomCommand

section

variable (hash : Bytes → UInt64) (estimate : UInt32 → F64 → Option ℕ) (kc : KeyComposer) (key : Key)

namespace BloomCall

/-- The items reported and the number of new ones after the call, with the writes it queues. -/
def plan (s : Store) (L : List Bytes) (n : ℕ) (c : BloomCall) :
    Except Error ((List Bytes × ℕ) × Batch) :=
  match c.command with
  | .reserve errorRate capacity options =>
    (bfReserve estimate s kc key c.nowMs c.version errorRate capacity options).map fun x =>
      ((L, n), x.2)
  | .insert items options =>
    (bfInsert hash estimate s kc key c.nowMs c.version items options).map fun x =>
      ((reportedItems items x.1 ++ L, n + x.1.count .ok), x.2)

def exec (L : List Bytes) (n : ℕ) (e : Engine) (c : BloomCall) :
    Except Error ((List Bytes × ℕ) × Engine) :=
  e.exec (c.plan hash estimate kc key e.store L n)

def next (L : List Bytes) (n : ℕ) (e : Engine) (c : BloomCall) : (List Bytes × ℕ) × Engine :=
  match c.exec hash estimate kc key L n e with
  | .ok x => x
  | .error _ => ((L, n), e)

end BloomCall

/-- The items reported, the number of new ones and the states of the runs from `e₀`. -/
inductive BloomReachable (e₀ : Engine) : List Bytes → ℕ → Engine → Prop
  | start : BloomReachable e₀ [] 0 e₀
  | call {L : List Bytes} {n : ℕ} {e : Engine} (c : BloomCall) : BloomReachable e₀ L n e →
      BloomReachable e₀ (c.next hash estimate kc key L n e).1.1 (c.next hash estimate kc key L n e).1.2
        (c.next hash estimate kc key L n e).2

end

theorem BloomHolds.of_new
    (h : ∀ slot : Slot, slot.Valid → s.at ⟨kc, key, slot⟩ = none) :
    BloomHolds hash estimate kc key s [] 0 :=
  ⟨⟨h .str trivial, fun u hu _ => h (.metadata u) (allCompositeMetaTags_isMeta hu)⟩,
    .absent (h (.metadata .bloomMeta) rfl) fun _ _ => h (.sub .bloomData _) rfl⟩

theorem BloomHolds.of_stored (honly : HoldsOnly s kc key .bloomMeta) (hs : BloomStored s kc key w)
    (hc : BloomChain hash estimate w L n) : BloomHolds hash estimate kc key s L n :=
  ⟨honly, .present hs hc⟩

theorem bfReserve_holds (h : BloomHolds hash estimate kc key s L n) {errorRate : F64}
    {capacity : UInt32} {options : List BfReserve} {u : Unit} {ops : Batch}
    (hrun : bfReserve estimate s kc key now version errorRate capacity options = .ok (u, ops)) :
    BloomHolds hash estimate kc key (s.apply ops) L n := by
  obtain ⟨honly, hrep⟩ := h
  unfold bfReserve at hrun
  simp only [bind, Except.bind] at hrun
  cases hcheck : checkBloomShape capacity errorRate with
  | error err => simp [hcheck] at hrun
  | ok v =>
    simp only [hcheck] at hrun
    cases hrep with
    | absent hnone hdata =>
      have hget : getBfMetaChecked s kc key now = .ok none := honly.getMetaChecked_absent hnone now
      have hc := @bloomChain_fresh hash estimate capacity errorRate (reserveExpansion options) version
      simp only [hget] at hrun
      obtain ⟨-, rfl⟩ := Prod.mk.inj (Except.ok.inj hrun)
      have howned := @bloomBatch_owned kc key
        (.fresh estimate capacity errorRate (reserveExpansion options) version) 0
      exact .of_stored (honly.apply howned) (bloomStored_putChain hc.length_lt hdata) hc
    | present hs hc =>
      rw [getBfMetaChecked_stored honly hs hc now] at hrun
      cases hrun

theorem bfInsert_holds (h : BloomHolds hash estimate kc key s L n) {items : List Bytes}
    {options : List BfInsert} {results : List BloomFilterAddResult} {ops : Batch}
    (hrun : bfInsert hash estimate s kc key now version items options = .ok (results, ops)) :
    BloomHolds hash estimate kc key (s.apply ops) (reportedItems items results ++ L)
      (n + results.count .ok) := by
  cases items with
  | nil =>
    obtain ⟨rfl, rfl⟩ := Prod.mk.inj (Except.ok.inj hrun)
    exact h
  | cons item items =>
    rcases bfMetaForInsert_cases h (.fromOptions options) with
      ⟨w, hs, hc, -⟩ | ⟨rfl, rfl, hnone, ⟨err, herr⟩ | ⟨hcap, hmeta⟩⟩
    · obtain ⟨rs, w', hadd⟩ :
          ∃ results w', w.addAll estimate hash (item :: items) = (results, w') := ⟨_, _, rfl⟩
      obtain ⟨ops', hinsert, -, hstored, honly⟩ :=
        bfInsert_stored h.only hs hc (List.cons_ne_nil _ _) hadd now version options
      rw [hinsert] at hrun
      obtain ⟨rfl, rfl⟩ := Prod.mk.inj (Except.ok.inj hrun)
      exact .of_stored honly hstored (hc.addAll _ hadd).1
    · unfold bfInsert at hrun
      rw [if_neg (by simp)] at hrun
      simp only [herr, bind, Except.bind] at hrun
      cases hrun
    · have hc := @bloomChain_fresh hash estimate (BloomFilterInsert.fromOptions options).capacity
        (BloomFilterInsert.fromOptions options).errorRate
        (BloomFilterInsert.fromOptions options).expansion version
      obtain ⟨rs, w', hadd⟩ : ∃ results w',
          (BloomWork.fresh estimate (BloomFilterInsert.fromOptions options).capacity
            (BloomFilterInsert.fromOptions options).errorRate
            (BloomFilterInsert.fromOptions options).expansion version).addAll estimate hash
              (item :: items) = (results, w') := ⟨_, _, rfl⟩
      obtain ⟨ops', hinsert, -, hstored, honly⟩ :=
        bfInsert_fresh h.only hnone rfl hcap (hmeta now version) item items hadd
      rw [hinsert] at hrun
      obtain ⟨rfl, rfl⟩ := Prod.mk.inj (Except.ok.inj hrun)
      exact .of_stored honly hstored (hc.addAll _ hadd).1

theorem BloomCall.next_holds {e : Engine} (c : BloomCall)
    (h : BloomHolds hash estimate kc key e.store L n) :
    BloomHolds hash estimate kc key (c.next hash estimate kc key L n e).2.store
      (c.next hash estimate kc key L n e).1.1 (c.next hash estimate kc key L n e).1.2 := by
  unfold next
  cases hexec : c.exec hash estimate kc key L n e with
  | error err => exact h
  | ok x =>
    obtain ⟨⟨L', n'⟩, e'⟩ := x
    obtain ⟨ops, hplan, hstore⟩ := Engine.exec_eq_ok hexec
    simp only [hstore]
    obtain ⟨now, version, command⟩ := c
    cases command with
    | reserve errorRate capacity options =>
      simp only [plan] at hplan
      obtain ⟨x, hrun, hx⟩ := map_eq_ok hplan
      cases hx
      exact bfReserve_holds h hrun
    | insert items options =>
      simp only [plan] at hplan
      obtain ⟨x, hrun, hx⟩ := map_eq_ok hplan
      cases hx
      exact bfInsert_holds h hrun

theorem BloomReachable.holds {e₀ e : Engine} (h : BloomReachable hash estimate kc key e₀ L n e)
    (hnew : ∀ slot : Slot, slot.Valid → e₀.store.at ⟨kc, key, slot⟩ = none) :
    BloomHolds hash estimate kc key e.store L n := by
  induction h with
  | start => exact .of_new hnew
  | call c _ ih => exact c.next_holds ih

theorem BloomHolds.size (h : BloomHolds hash estimate kc key s L n) :
    (s.metadata.get (bloomMetaKey kc key) = none ∧ n = 0) ∨
      ∃ m, (s.metadata.get (bloomMetaKey kc key)).bind BloomChainMeta.decode = some m ∧
        m.base.size.toNat = n ∧ (m.expansion = 0 → n ≤ m.baseCapacity.toNat) := by
  obtain ⟨-, hrep⟩ := h
  cases hrep with
  | absent hnone => exact .inl ⟨hnone, rfl⟩
  | present hs hc =>
    exact .inr ⟨_, by rw [hs.metadata]; exact BloomChainMeta.decode_encode _, hc.size, hc.fixed⟩

theorem BloomHolds.full (h : BloomHolds hash estimate kc key s L n) {m : BloomChainMeta}
    (hm : (s.metadata.get (bloomMetaKey kc key)).bind BloomChainMeta.decode = some m)
    (hfixed : m.expansion = 0) (hfull : m.baseCapacity.toNat ≤ n) {items : List Bytes}
    {options : List BfInsert} {results : List BloomFilterAddResult} {ops : Batch}
    (hrun : bfInsert hash estimate s kc key now version items options = .ok (results, ops)) :
    .ok ∉ results := by
  obtain ⟨honly, hrep⟩ := h
  cases hrep with
  | absent hnone =>
    rw [hnone] at hm
    cases hm
  | @present w _ _ hs hc =>
    rw [hs.metadata] at hm
    obtain rfl : w.chain = m := Option.some.inj ((BloomChainMeta.decode_encode _).symm.trans hm)
    cases items with
    | nil =>
      obtain ⟨rfl, -⟩ := Prod.mk.inj (Except.ok.inj hrun)
      exact List.not_mem_nil
    | cons item items =>
      obtain ⟨rs, w', hadd⟩ :
          ∃ results w', w.addAll estimate hash (item :: items) = (results, w') := ⟨_, _, rfl⟩
      obtain ⟨ops', hinsert, -⟩ :=
        bfInsert_stored honly hs hc (List.cons_ne_nil _ _) hadd now version options
      rw [hinsert] at hrun
      obtain ⟨rfl, -⟩ := Prod.mk.inj (Except.ok.inj hrun)
      obtain ⟨hc', hgrows, -⟩ := hc.addAll _ hadd
      have hcount := hc'.fixed (hgrows.expansion.trans hfixed)
      rw [hgrows.baseCapacity] at hcount
      exact List.count_eq_zero.mp (by omega)

/-- Every item that was reported is found at every later time, the size counts the new items,
a filter that does not scale takes no more than its capacity, and a call with several items is
as good as calls with one item each. -/
theorem bloom_no_false_negatives {e₀ e : Engine}
    (hnew : ∀ slot : Slot, slot.Valid → e₀.store.at ⟨kc, key, slot⟩ = none)
    (h : BloomReachable hash estimate kc key e₀ L n e) :
    (∀ now, ∀ item ∈ L, bfExists hash e.store kc key now item = .ok true) ∧
    (∀ now items, ∃ results, bfMexists hash e.store kc key now items = .ok results ∧
      ∀ i (hi : i < items.length), items[i] ∈ L → results[i]? = some true) ∧
    ((e.store.metadata.get (bloomMetaKey kc key) = none ∧ n = 0) ∨
      ∃ m, (e.store.metadata.get (bloomMetaKey kc key)).bind BloomChainMeta.decode = some m ∧
        m.base.size.toNat = n ∧ (m.expansion = 0 → n ≤ m.baseCapacity.toNat)) ∧
    (∀ m, (e.store.metadata.get (bloomMetaKey kc key)).bind BloomChainMeta.decode = some m →
      m.expansion = 0 → m.baseCapacity.toNat ≤ n →
      ∀ now version items options results ops,
        bfInsert hash estimate e.store kc key now version items options = .ok (results, ops) →
        .ok ∉ results) ∧
    BatchAsEach hash estimate kc key e.store := by
  have hholds := h.holds hnew
  exact ⟨fun now item hmem => hholds.bfExists now hmem, fun now items => hholds.bfMexists now items,
    hholds.size, fun m hm hfixed hfull _ _ _ _ _ _ hrun => hholds.full hm hfixed hfull hrun,
    hholds.batchAsEach⟩

def hundredthEstimate (ndv : UInt32) (_ : F64) : Option ℕ := some (ndv.toNat * 968 / 100)

def byteSumHash (item : Bytes) : UInt64 := item.foldl (fun h b => h * 31 + b.toUInt64) 7

def sampleBloomInsert : BloomCall := ⟨1, 1, .insert [[7], [8, 9], [7]] [.capacity 4]⟩

theorem bloom_no_false_negatives_sample :
    ∃ e, BloomReachable byteSumHash hundredthEstimate ⟨0, 0⟩ sampleKey .empty
        [[7], [8, 9], [7]] 2 e ∧
      bfExists byteSumHash e.store ⟨0, 0⟩ sampleKey 3 [8, 9] = .ok true := by
  have hstart : BloomReachable byteSumHash hundredthEstimate ⟨0, 0⟩ sampleKey .empty [] 0 .empty :=
    .start
  have hrun := hstart.call sampleBloomInsert
  have hcounts : (sampleBloomInsert.next byteSumHash hundredthEstimate ⟨0, 0⟩ sampleKey [] 0 .empty).1 =
      ([[7], [8, 9], [7]], 2) := by
    decide +kernel
  rw [hcounts] at hrun
  exact ⟨_, hrun, (bloom_no_false_negatives (fun slot _ => by cases slot <;> rfl) hrun).1 3 [8, 9]
    (by decide)⟩

end Wedb
