import Wedb.Hash.Expiry

/-!
# Runs of hash commands

A call is a command on a key at a clock value; its writes are committed together
and a failed call changes nothing. The stored counters of every hash describe its
stored fields after any run in which no call sets a field that is stored expired.
-/

namespace Wedb

inductive HashCommand
  | hset (fields : List (Bytes × Bytes))
  | hsetnx (field value : Bytes)
  | hincrby (field : Bytes) (step : Int64)
  | hsetexOne (field value : Bytes) (options : List HSet)
  | hsetex (fieldValues : List (Bytes × Bytes)) (options : List HSet)
  | hexpire (fields : List Bytes) (seconds : Int64) (options : List HExpire)
  | hpexpire (fields : List Bytes) (milliseconds : Int64) (options : List HExpire)
  | hexpireat (fields : List Bytes) (unixTimeSec : UInt64) (options : List HExpire)
  | hpexpireat (fields : List Bytes) (unixTimeMs : UInt64) (options : List HExpire)
  | hpersist (fields : List Bytes)
  | hgetex (field : Bytes) (options : List HGetEx)
  | hmgetEx (fields : List Bytes) (options : List HGetEx)
  | hgetdel (fields : List Bytes)
  | hdel (fields : List Bytes)
  | hlen (mode : HashLengthMode)

/-- A command with its key, the clock it reads and the version it would generate. -/
structure HashCall where
  kc : KeyComposer
  key : Key
  nowMs : UInt64
  version : UInt64
  command : HashCommand

namespace HashCall

def plan (parseI64Fast : Bytes → Option Int64) (s : Store) (c : HashCall) : Except Error Batch :=
  match c.command with
  | .hset fields => (Wedb.hset s c.kc c.key c.nowMs c.version fields).map Prod.snd
  | .hsetnx f v => (Wedb.hsetnx s c.kc c.key c.nowMs c.version f v).map Prod.snd
  | .hincrby f step =>
    (Wedb.hincrby s c.kc c.key c.nowMs parseI64Fast c.version f step).map Prod.snd
  | .hsetexOne f v options =>
    (Wedb.hsetexOne s c.kc c.key c.nowMs c.version f v options).map Prod.snd
  | .hsetex fieldValues options =>
    (Wedb.hsetex s c.kc c.key c.nowMs c.version fieldValues options).map Prod.snd
  | .hexpire fields seconds options =>
    (Wedb.hexpire s c.kc c.key c.nowMs fields seconds options).map Prod.snd
  | .hpexpire fields ms options =>
    (Wedb.hpexpire s c.kc c.key c.nowMs fields ms options).map Prod.snd
  | .hexpireat fields sec options =>
    (Wedb.hexpireat s c.kc c.key c.nowMs fields sec options).map Prod.snd
  | .hpexpireat fields ms options =>
    (Wedb.hpexpireat s c.kc c.key c.nowMs fields ms options).map Prod.snd
  | .hpersist fields => (Wedb.hpersist s c.kc c.key c.nowMs fields).map Prod.snd
  | .hgetex f options => (Wedb.hgetex s c.kc c.key c.nowMs f options).map Prod.snd
  | .hmgetEx fields options => (Wedb.hmgetEx s c.kc c.key c.nowMs fields options).map Prod.snd
  | .hgetdel fields => (Wedb.hgetdel s c.kc c.key c.nowMs fields).map Prod.snd
  | .hdel fields => (Wedb.hdel s c.kc c.key c.nowMs fields).map Prod.snd
  | .hlen mode => (hlenWithMode s c.kc c.key c.nowMs mode).map Prod.snd

def exec (parseI64Fast : Bytes → Option Int64) (e : Engine) (c : HashCall) :
    Except Error Engine := do
  e.commit (← c.plan parseI64Fast e.store)

def safe (s : Store) (c : HashCall) : Bool :=
  match c.command with
  | .hsetexOne f _ options =>
    setexSafe s c.kc c.key c.nowMs [f] (.fromOptions options c.nowMs)
  | .hsetex fieldValues options =>
    setexSafe s c.kc c.key c.nowMs (fieldValues.map Prod.fst) (.fromOptions options c.nowMs)
  | _ => true

end HashCall

/-- The states of the runs from the empty store whose calls are allowed. -/
inductive HashReachable (parseI64Fast : Bytes → Option Int64) (allowed : Store → HashCall → Bool) :
    Engine → Prop
  | start : HashReachable parseI64Fast allowed .empty
  | call {e e' : Engine} {c : HashCall} : HashReachable parseI64Fast allowed e →
      allowed e.store c = true → c.exec parseI64Fast e = .ok e' →
      HashReachable parseI64Fast allowed e'

def replay (parseI64Fast : Bytes → Option Int64) (allowed : Store → HashCall → Bool) :
    Engine → List HashCall → Option Engine
  | e, [] => some e
  | e, c :: calls =>
    if allowed e.store c then
      (c.exec parseI64Fast e).toOption.bind fun e' => replay parseI64Fast allowed e' calls
    else none

/-- Stored metadata counts the stored fields and there are some. -/
def HashExact (s : Store) (kc : KeyComposer) (key : Key) : Prop :=
  ∀ v, s.metadata.get (composeHashMetaKey kc key) = some v →
    ∃ hm, HashMeta.decode v = some hm ∧
      (s.family kc key .hashData).length = hm.base.size.toNat ∧
      (s.family kc key .hashData).countP isPersistent = hm.persist.toNat ∧
      Bounded hm (s.family kc key .hashData) ∧ (s.family kc key .hashData).length ≠ 0

variable {s : Store} {kc : KeyComposer} {key : Key} {ops : Batch}
  {parseI64Fast : Bytes → Option Int64}

theorem HashInv.exact (h : HashInv s kc key) : HashExact s kc key := by
  intro v hv
  obtain ⟨hm, rfl, h0, hc⟩ := h v hv
  refine ⟨hm, HashMeta.decode_encode hc.mode, hc.size, hc.persist, hc.bounded, fun hlen => h0 ?_⟩
  rw [hc.size] at hlen
  exact UInt64.toNat_inj.mp hlen

theorem hashInv_empty (kc : KeyComposer) (key : Key) : HashInv ∅ kc key :=
  fun v hv => by cases hv

theorem HashInv.of_local {kc' : KeyComposer} {key' : Key} (h : HashInv s kc' key')
    (hops : ∀ o ∈ ops, o.LocalTo kc key) (hne : ¬(kc' = kc ∧ key' = key)) :
    HashInv (s.apply ops) kc' key' := by
  intro v hv
  have hat := at_apply_of_local (s := s) (b := ⟨kc', key', .metadata .hashMeta⟩) hops rfl hne
  rw [family_apply_of_local hops rfl hne]
  exact h v (hat.symm.trans hv)

theorem Except.map_snd_eq_ok {α : Type} {x : Except Error (α × Batch)}
    (h : x.map Prod.snd = .ok ops) : ∃ a, x = .ok (a, ops) := by
  cases x with
  | error err => cases h
  | ok r =>
    cases h
    exact ⟨r.1, rfl⟩

theorem HashCall.plan_kept {c : HashCall} (hfits : s.Fits) (hinv : HashInv s c.kc c.key)
    (hsafe : c.safe s = true) (h : c.plan parseI64Fast s = .ok ops)
    (hfits' : (s.apply ops).Fits) : HashKept s c.kc c.key ops := by
  obtain ⟨kc, key, now, version, command⟩ := c
  cases command with
  | hset fields =>
    obtain ⟨a, h⟩ := Except.map_snd_eq_ok h
    exact hset_kept hinv h hfits'
  | hsetnx f v =>
    obtain ⟨a, h⟩ := Except.map_snd_eq_ok h
    exact hsetnx_kept hinv h hfits'
  | hincrby f step =>
    obtain ⟨a, h⟩ := Except.map_snd_eq_ok h
    exact hincrby_kept hinv h hfits'
  | hsetexOne f v options =>
    obtain ⟨a, h⟩ := Except.map_snd_eq_ok h
    exact setFieldWithExpireOne_kept hinv hsafe h hfits'
  | hsetex fieldValues options =>
    obtain ⟨a, h⟩ := Except.map_snd_eq_ok h
    exact setFieldsWithExpire_kept hinv hsafe h hfits'
  | hexpire | hpexpire | hexpireat | hpexpireat =>
    obtain ⟨a, h⟩ := Except.map_snd_eq_ok h
    exact expireFields_kept hinv h
  | hpersist fields =>
    obtain ⟨a, h⟩ := Except.map_snd_eq_ok h
    exact hfeCommand_kept persistHandler_sound persistHandler_sound hinv h
  | hgetex f options =>
    obtain ⟨a, h⟩ := Except.map_snd_eq_ok h
    exact hfeOne_kept (getExOneHandler_sound (HashGetEx.fromOptions_ne_keep options now) now) hinv h
  | hmgetEx fields options =>
    obtain ⟨a, h⟩ := Except.map_snd_eq_ok h
    exact hfeCommand_kept (getExOneHandler_sound (HashGetEx.fromOptions_ne_keep options now) now)
      (getExHandler_sound _ now) hinv h
  | hgetdel fields =>
    obtain ⟨a, h⟩ := Except.map_snd_eq_ok h
    exact hfeCommand_kept getDelHandler_sound getDelHandler_sound hinv h
  | hdel fields =>
    obtain ⟨a, h⟩ := Except.map_snd_eq_ok h
    exact hdel_kept hinv h
  | hlen mode =>
    obtain ⟨a, h⟩ := Except.map_snd_eq_ok h
    exact hlenWithMode_kept hfits hinv h

theorem HashCall.exec_inv {c : HashCall} {e e' : Engine} (hinv : ∀ kc key, HashInv e.store kc key)
    (hsafe : c.safe e.store = true) (h : c.exec parseI64Fast e = .ok e') (kc : KeyComposer)
    (key : Key) : HashInv e'.store kc key := by
  unfold exec at h
  obtain ⟨ops, hplan, h⟩ := bind_eq_ok h
  have hstore := Engine.commit_eq_ok h
  have hkept := plan_kept e.fits (hinv c.kc c.key) hsafe hplan (hstore ▸ e'.fits)
  rw [hstore]
  by_cases hkey : kc = c.kc ∧ key = c.key
  · obtain ⟨rfl, rfl⟩ := hkey
    exact hkept.inv
  · exact (hinv kc key).of_local hkept.onKey hkey

/-- The counters are exact in every run that sets no expired field. -/
theorem hash_counters_exact {e : Engine}
    (h : HashReachable parseI64Fast (fun s c => c.safe s) e) (kc : KeyComposer)
    (key : Key) : HashExact e.store kc key := by
  have hinv : ∀ kc key, HashInv e.store kc key := by
    induction h with
    | start => exact hashInv_empty
    | call _ hsafe hexec ih => exact HashCall.exec_inv ih hsafe hexec
  exact (hinv kc key).exact

theorem HashReachable.replay {allowed : Store → HashCall → Bool} {e e' : Engine}
    {calls : List HashCall} (h : HashReachable parseI64Fast allowed e)
    (hr : replay parseI64Fast allowed e calls = some e') :
    HashReachable parseI64Fast allowed e' := by
  induction calls generalizing e with
  | nil =>
    cases hr
    exact h
  | cons c calls ih =>
    simp only [Wedb.replay] at hr
    split_ifs at hr with hallowed
    cases hexec : c.exec parseI64Fast e with
    | error err => rw [hexec] at hr; cases hr
    | ok e1 =>
      rw [hexec] at hr
      exact ih (.call h hallowed hexec) hr

def setTwice (later : UInt64) : List HashCall :=
  [⟨⟨0, 0⟩, sampleKey, 1, 1, .hsetex [([102], [1])] [.px 10]⟩,
    ⟨⟨0, 0⟩, sampleKey, later, 2, .hsetex [([102], [2])] [.px 10]⟩]

def sampleSizes (e : Engine) : Option UInt64 × ℕ :=
  (((e.store.metadata.get (composeHashMetaKey ⟨0, 0⟩ sampleKey)).bind HashMeta.decode).map
    fun hm => hm.base.size, (e.store.family ⟨0, 0⟩ sampleKey .hashData).length)

theorem hash_counters_exact_setTwice :
    ∃ e, replay (fun _ => none) (fun s c => c.safe s) .empty (setTwice 5) = some e ∧
      sampleSizes e = (some 1, 1) ∧ HashExact e.store ⟨0, 0⟩ sampleKey := by
  have hrun : (replay (fun _ => none) (fun s c => c.safe s) .empty (setTwice 5)).map
      sampleSizes = some (some 1, 1) := by
    decide +kernel
  obtain ⟨e, he, hsizes⟩ := Option.map_eq_some_iff.mp hrun
  exact ⟨e, he, hsizes, hash_counters_exact (.replay .start he) ⟨0, 0⟩ sampleKey⟩

/-- A field set again after its expiry is counted twice. -/
theorem hash_counters_drift :
    ∃ e, HashReachable (fun _ => none) (fun _ _ => true) e ∧
      replay (fun _ => none) (fun _ _ => true) .empty (setTwice 20) = some e ∧
      ¬HashExact e.store ⟨0, 0⟩ sampleKey := by
  have hrun : (replay (fun _ => none) (fun _ _ => true) .empty (setTwice 20)).map
      sampleSizes = some (some 2, 1) := by
    decide +kernel
  obtain ⟨e, he, hsizes⟩ := Option.map_eq_some_iff.mp hrun
  refine ⟨e, .replay .start he, he, fun hexact => ?_⟩
  simp only [sampleSizes, Prod.mk.injEq, Option.map_eq_some_iff, Option.bind_eq_some_iff] at hsizes
  obtain ⟨⟨hm, ⟨v, hv, hdec⟩, hsize⟩, hlen⟩ := hsizes
  obtain ⟨hm', hdec', hlen', -⟩ := hexact v hv
  rw [hdec, Option.some.injEq] at hdec'
  rw [← hdec', hsize, hlen] at hlen'
  exact absurd hlen' (by decide)

end Wedb
