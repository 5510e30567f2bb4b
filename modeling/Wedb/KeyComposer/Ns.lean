import Wedb.KeyComposer.Composer

/-!
# System keys

The catalog lists the databases of every namespace and two kinds of counters
hand out ids. All of these keys start with the byte `0xFF`, so none of them lies
in a scope.
-/

namespace Wedb

def nsNextIdKey : Bytes := [0xFF, SystemDomainTag.sysMeta.asU8, SysMetaTag.nsNextId.asU8]

def catalogPrefix : Bytes := [0xFF, SystemDomainTag.catalog.asU8]

def catalogNsPrefix (nsId : UInt64) : Bytes := catalogPrefix ++ encodeOppvU64 nsId

def catalogDbKey (nsId dbId : UInt64) : Bytes :=
  catalogPrefix ++ encodeOppvU64 nsId ++ encodeOppvU64 dbId

def dbNextIdPrefix : Bytes := [0xFF, SystemDomainTag.sysMeta.asU8, SysMetaTag.dbNextId.asU8]

def dbNextIdKey (nsId : UInt64) : Bytes := dbNextIdPrefix ++ encodeOppvU64 nsId

inductive SystemKey : Bytes → Prop
  | catalog (nsId dbId : UInt64) : SystemKey (catalogDbKey nsId dbId)
  | nsNextId : SystemKey nsNextIdKey
  | dbNextId (nsId : UInt64) : SystemKey (dbNextIdKey nsId)

/-- The keys the composers write in a scope. -/
inductive ComposedIn (kc : KeyComposer) : Bytes → Prop
  | metaKey (tag : KeyTag) (key : Bytes) :
      ComposedIn kc (kc.composeMetaKeyStack tag.asSlice key)
  | subkey (tag : KeyTag) (key sub : Bytes) :
      ComposedIn kc (kc.composeSubkeyStack tag.asSlice key sub)
  | subkey2 (tag : KeyTag) (key sub1 sub2 : Bytes) :
      ComposedIn kc (kc.composeSubkey2Stack tag.asSlice key sub1 sub2)
  | oppvSubkey (tag : KeyTag) (key mid sub : Bytes) :
      ComposedIn kc (kc.composeOppvSubkeyStack tag.asSlice key mid sub)

theorem ComposedIn.eq_scope_append {kc : KeyComposer} {k : Bytes} (h : ComposedIn kc k) :
    ∃ (tag : KeyTag) (s : Bytes), k = kc.encodeScopePrefix ++ tag.asSlice ++ s := by
  cases h with
  | metaKey tag key => exact ⟨tag, key, by simp⟩
  | subkey tag key sub =>
    exact ⟨tag, encodeOppvU64 (KeyComposer.keyLen key) ++ key ++ sub, by
      simp [KeyComposer.composeSubkeyStack_eq]⟩
  | subkey2 tag key sub1 sub2 =>
    exact ⟨tag, encodeOppvU64 (KeyComposer.keyLen key) ++ key ++ (sub1 ++ sub2), by
      simp [KeyComposer.composeSubkey2Stack_eq]⟩
  | oppvSubkey tag key mid sub =>
    exact ⟨tag, encodeOppvU64 (KeyComposer.keyLen key) ++ key ++
      (encodeOppvU64 (KeyComposer.keyLen mid) ++ mid ++ sub), by
      simp [KeyComposer.composeOppvSubkeyStack_eq]⟩

theorem ComposedIn.scope_prefix_iff {kc kc' : KeyComposer} {k : Bytes} (h : ComposedIn kc' k) :
    kc.encodeScopePrefix <+: k ↔ kc = kc' := by
  obtain ⟨tag, s, rfl⟩ := h.eq_scope_append
  rw [List.append_assoc, KeyComposer.scope_prefix_iff]

theorem ComposedIn.nsPrefix_prefix_iff {kc : KeyComposer} {ns : UInt64} {k : Bytes}
    (h : ComposedIn kc k) : KeyComposer.nsPrefix ns <+: k ↔ ns = kc.nsId := by
  obtain ⟨tag, s, rfl⟩ := h.eq_scope_append
  rw [List.append_assoc, KeyComposer.nsPrefix_prefix_iff]

theorem ComposedIn.head {kc : KeyComposer} {k : Bytes} (h : ComposedIn kc k) :
    ∃ s, k = 0 :: s := by
  obtain ⟨tag, s, rfl⟩ := h.eq_scope_append
  exact ⟨_, rfl⟩

theorem SystemKey.head {k : Bytes} (h : SystemKey k) : ∃ s, k = 0xFF :: s := by
  cases h with
  | catalog ns db => exact ⟨_, rfl⟩
  | nsNextId => exact ⟨_, rfl⟩
  | dbNextId ns => exact ⟨_, rfl⟩

theorem SystemKey.not_zero_prefix {k s : Bytes} (h : SystemKey k) : ¬(0 :: s) <+: k := by
  obtain ⟨t, rfl⟩ := h.head
  intro hp
  exact absurd (List.cons_prefix_cons.mp hp).1 (by decide)

theorem ComposedIn.not_system {kc : KeyComposer} {k : Bytes} (h : ComposedIn kc k) :
    ¬SystemKey k := by
  obtain ⟨s, rfl⟩ := h.head
  intro hs
  exact hs.not_zero_prefix (List.prefix_refl _)

/-! ## Catalog keys -/

theorem catalogNsPrefix_delimited : Delimited catalogNsPrefix := by
  intro a b s t h
  simp only [catalogNsPrefix, List.append_assoc, List.append_cancel_left_eq] at h
  exact encodeOppvU64_delimited h

theorem catalogDbKey_inj {ns db ns' db' : UInt64} :
    catalogDbKey ns db = catalogDbKey ns' db' ↔ ns = ns' ∧ db = db' := by
  constructor
  · intro h
    obtain ⟨hns, hdb⟩ := catalogNsPrefix_delimited h
    exact ⟨hns, encodeOppvU64_delimited.injective hdb⟩
  · rintro ⟨rfl, rfl⟩
    rfl

theorem catalogNsPrefix_prefix_iff {ns ns' : UInt64} {s : Bytes} :
    catalogNsPrefix ns <+: catalogNsPrefix ns' ++ s ↔ ns = ns' := by
  constructor
  · exact catalogNsPrefix_delimited.eq_of_prefix
  · rintro rfl
    exact List.prefix_append _ s

theorem catalogNsPrefix_prefix_catalogDbKey {ns ns' db : UInt64} :
    catalogNsPrefix ns <+: catalogDbKey ns' db ↔ ns = ns' :=
  catalogNsPrefix_prefix_iff

theorem catalogPrefix_prefix_nsPrefix (ns : UInt64) : catalogPrefix <+: catalogNsPrefix ns :=
  List.prefix_append _ _

theorem not_catalogPrefix_nsNextIdKey : ¬catalogPrefix <+: nsNextIdKey := by decide

theorem not_catalogPrefix_dbNextIdKey (ns : UInt64) : ¬catalogPrefix <+: dbNextIdKey ns := by
  intro h
  have h2 := (List.cons_prefix_cons.mp h).2
  exact absurd (List.cons_prefix_cons.mp h2).1 (by decide)

theorem SystemKey.catalogPrefix_iff {k : Bytes} (h : SystemKey k) :
    catalogPrefix <+: k ↔ ∃ ns db, k = catalogDbKey ns db := by
  constructor
  · intro hp
    cases h with
    | catalog ns db => exact ⟨ns, db, rfl⟩
    | nsNextId => exact absurd hp not_catalogPrefix_nsNextIdKey
    | dbNextId ns => exact absurd hp (not_catalogPrefix_dbNextIdKey ns)
  · rintro ⟨ns, db, rfl⟩
    rw [catalogDbKey, List.append_assoc]
    exact List.prefix_append _ _

theorem dbNextIdKey_injective : Function.Injective dbNextIdKey := by
  intro a b h
  exact encodeOppvU64_delimited.injective (List.append_cancel_left h)

theorem dbNextIdKey_ne_nsNextIdKey (ns : UInt64) : dbNextIdKey ns ≠ nsNextIdKey := by
  intro h
  simp [dbNextIdKey, dbNextIdPrefix, nsNextIdKey, SysMetaTag.asU8] at h

theorem catalogNsPrefix_append_lt {ns ns' : UInt64} (h : ns < ns') (s t : Bytes) :
    catalogNsPrefix ns ++ s < catalogNsPrefix ns' ++ t := by
  rw [catalogNsPrefix, catalogNsPrefix, List.append_assoc, List.append_assoc,
    Bytes.append_lt_append_iff]
  exact encodeOppvU64_append_lt h s t

theorem catalogDbKey_lt_iff {ns db ns' db' : UInt64} :
    catalogDbKey ns db < catalogDbKey ns' db' ↔ ns < ns' ∨ ns = ns' ∧ db < db' := by
  have hself : ∀ n a b, catalogDbKey n a < catalogDbKey n b ↔ a < b := fun n a b => by
    rw [catalogDbKey, catalogDbKey, Bytes.append_lt_append_iff, encodeOppvU64_lt_iff]
  constructor
  · intro h
    rcases lt_trichotomy ns.toNat ns'.toNat with hlt | heq | hgt
    · exact Or.inl hlt
    · obtain rfl := UInt64.toNat.inj heq
      exact Or.inr ⟨rfl, (hself ns db db').mp h⟩
    · exact absurd h (not_lt_of_gt (catalogNsPrefix_append_lt hgt _ _))
  · rintro (hlt | ⟨rfl, hlt⟩)
    · exact catalogNsPrefix_append_lt hlt _ _
    · exact (hself ns db db').mpr hlt

end Wedb
