import Symbios.Proof.Tiles

/-!
# The links a store adds

Both loops of `Store` extend the links: no link is lost or changed, the new keys are the segments that were
touched, and a new link points where its distribution was placed (`Extends`). A store that adds a link makes
the record longer (`updateLinks_longer`), and one whose segments come in order keeps the keys in order.
-/

namespace Symbios

open MetadataOrchestrator

/-- The segment a distribution is written to. -/
def DataDistribution.segment (maxObjSize : Nat) (d : DataDistribution) : Nat :=
  d.destinationData.position / maxObjSize

/-- The link of a distribution that is the first one of its segment. -/
def freshLink (maxObjSize : Nat) (d : DataDistribution) : Data :=
  { placed maxObjSize d.destinationData with buffer := none }

/-- `links'` is `links` with links for the distributions `ds`. -/
structure Extends (maxObjSize : Nat) (ds : List DataDistribution) (links links' : Links) : Prop where
  keeps : ∀ key link, links.lookup key = some link → links'.lookup key = some link
  keys : ∀ key, key ∈ links' ↔ key ∈ links ∨ ∃ d ∈ ds, key = linkKey (d.segment maxObjSize)
  fresh : ∀ key link, links'.lookup key = some link → links.lookup key = some link ∨
    ∃ d ∈ ds, key = linkKey (d.segment maxObjSize) ∧ link = freshLink maxObjSize d

namespace Extends

variable {maxObjSize : Nat} {d : DataDistribution} {ds : List DataDistribution} {links links' : Links}

theorem nil (links : Links) : Extends maxObjSize [] links links where
  keeps _ _ h := h
  keys key := by simp
  fresh _ _ h := Or.inl h

/-- The segment is linked already. -/
theorem cons_of_mem (hkey : linkKey (d.segment maxObjSize) ∈ links) (h : Extends maxObjSize ds links links') :
    Extends maxObjSize (d :: ds) links links' where
  keeps := h.keeps
  keys := by
    intro key
    rw [h.keys]
    constructor
    · rintro (hin | ⟨e, he, heq⟩)
      · exact Or.inl hin
      · exact Or.inr ⟨e, List.mem_cons_of_mem _ he, heq⟩
    · rintro (hin | ⟨e, he, heq⟩)
      · exact Or.inl hin
      · rcases List.mem_cons.mp he with rfl | he
        · exact Or.inl (heq ▸ hkey)
        · exact Or.inr ⟨e, he, heq⟩
  fresh := by
    intro key link hlookup
    rcases h.fresh key link hlookup with hold | ⟨e, he, heq⟩
    · exact Or.inl hold
    · exact Or.inr ⟨e, List.mem_cons_of_mem _ he, heq⟩

/-- The segment gets its link here. -/
theorem cons_of_notMem (hkey : linkKey (d.segment maxObjSize) ∉ links)
    (h : Extends maxObjSize ds (links.insert (linkKey (d.segment maxObjSize)) (freshLink maxObjSize d)) links') :
    Extends maxObjSize (d :: ds) links links' where
  keeps := by
    intro key link hlookup
    have hne : key ≠ linkKey (d.segment maxObjSize) := by
      intro heq
      rw [heq] at hlookup
      exact hkey (AList.lookup_isSome.mp (by rw [hlookup]; rfl))
    exact h.keeps key link (by rw [AList.lookup_insert_ne hne]; exact hlookup)
  keys := by
    intro key
    rw [h.keys, AList.mem_insert]
    constructor
    · rintro ((heq | hin) | ⟨e, he, heq⟩)
      · exact Or.inr ⟨d, List.mem_cons_self, heq⟩
      · exact Or.inl hin
      · exact Or.inr ⟨e, List.mem_cons_of_mem _ he, heq⟩
    · rintro (hin | ⟨e, he, heq⟩)
      · exact Or.inl (Or.inr hin)
      · rcases List.mem_cons.mp he with rfl | he
        · exact Or.inl (Or.inl heq)
        · exact Or.inr ⟨e, he, heq⟩
  fresh := by
    intro key link hlookup
    rcases h.fresh key link hlookup with hold | ⟨e, he, heq⟩
    · by_cases hne : key = linkKey (d.segment maxObjSize)
      · rw [hne, AList.lookup_insert] at hold
        exact Or.inr ⟨d, List.mem_cons_self, hne, (Option.some.inj hold).symm⟩
      · rw [AList.lookup_insert_ne hne] at hold
        exact Or.inl hold
    · exact Or.inr ⟨e, List.mem_cons_of_mem _ he, heq⟩

end Extends

/-! ## The two loops -/

theorem createLinks_extends (maxObjSize : Nat) (ds : List DataDistribution) (links : Links) :
    Extends maxObjSize ds links (createLinks maxObjSize ds links).2 := by
  induction ds generalizing links with
  | nil => exact Extends.nil links
  | cons d ds ih =>
    by_cases hkey : linkKey (d.segment maxObjSize) ∈ links
    · have hrec : (createLinks maxObjSize (d :: ds) links).2 = (createLinks maxObjSize ds links).2 := by
        unfold DataDistribution.segment at hkey
        simp only [createLinks, if_pos hkey]
      rw [hrec]
      exact Extends.cons_of_mem hkey (ih links)
    · have hrec : (createLinks maxObjSize (d :: ds) links).2 =
          (createLinks maxObjSize ds (links.insert (linkKey (d.segment maxObjSize)) (freshLink maxObjSize d))).2 := by
        unfold DataDistribution.segment at hkey
        simp only [createLinks, if_neg hkey]
        rfl
      rw [hrec]
      exact Extends.cons_of_notMem hkey (ih _)

theorem createLinks_fst (maxObjSize : Nat) (ds : List DataDistribution) (links : Links) :
    (createLinks maxObjSize ds links).1 =
      ds.map fun d => { d with destinationData := placed maxObjSize d.destinationData } := by
  induction ds generalizing links with
  | nil => rfl
  | cons d ds ih =>
    simp only [createLinks, List.map_cons]
    rw [ih]

section update

variable {maxObjSize : Nat} {d : DataDistribution} {links : Links}

theorem updateLinks_cons_of_mem {link : Data} (h : links.lookup (linkKey (d.segment maxObjSize)) = some link)
    (ds : List DataDistribution) :
    updateLinks maxObjSize (d :: ds) links =
      ({ d with destinationData := { d.destinationData with
            id := link.id
            position := d.destinationData.position % maxObjSize
            storageIndex := link.storageIndex } } :: (updateLinks maxObjSize ds links).1,
        (updateLinks maxObjSize ds links).2.1, (updateLinks maxObjSize ds links).2.2) := by
  have h' : links.lookup (linkKey (d.destinationData.position / maxObjSize)) = some link := h
  simp only [updateLinks, h']

theorem updateLinks_cons_of_notMem (h : links.lookup (linkKey (d.segment maxObjSize)) = none)
    (ds : List DataDistribution) :
    updateLinks maxObjSize (d :: ds) links =
      ({ d with destinationData := freshLink maxObjSize d } ::
          (updateLinks maxObjSize ds (links.insert (linkKey (d.segment maxObjSize)) (freshLink maxObjSize d))).1,
        (updateLinks maxObjSize ds (links.insert (linkKey (d.segment maxObjSize)) (freshLink maxObjSize d))).2.1,
        true) := by
  have h' : links.lookup (linkKey (d.destinationData.position / maxObjSize)) = none := h
  simp only [updateLinks, h']
  rfl

end update

theorem updateLinks_extends (maxObjSize : Nat) (ds : List DataDistribution) (links : Links) :
    Extends maxObjSize ds links (updateLinks maxObjSize ds links).2.1 := by
  induction ds generalizing links with
  | nil => exact Extends.nil links
  | cons d ds ih =>
    cases hlookup : links.lookup (linkKey (d.segment maxObjSize)) with
    | none =>
      rw [updateLinks_cons_of_notMem hlookup]
      exact Extends.cons_of_notMem (AList.lookup_eq_none.mp hlookup) (ih _)
    | some link =>
      rw [updateLinks_cons_of_mem hlookup]
      exact Extends.cons_of_mem (AList.lookup_isSome.mp (by rw [hlookup]; rfl)) (ih _)

theorem updateLinks_length (maxObjSize : Nat) (ds : List DataDistribution) (links : Links) :
    (updateLinks maxObjSize ds links).1.length = ds.length := by
  induction ds generalizing links with
  | nil => rfl
  | cons d ds ih =>
    cases hlookup : links.lookup (linkKey (d.segment maxObjSize)) with
    | none => rw [updateLinks_cons_of_notMem hlookup, List.length_cons, List.length_cons, ih]
    | some link => rw [updateLinks_cons_of_mem hlookup, List.length_cons, List.length_cons, ih]

/-- The flag says that some segment was not linked. -/
theorem updateLinks_flag (maxObjSize : Nat) (ds : List DataDistribution) (links : Links) :
    (updateLinks maxObjSize ds links).2.2 = true ↔ ∃ d ∈ ds, linkKey (d.segment maxObjSize) ∉ links := by
  induction ds generalizing links with
  | nil => simp [updateLinks]
  | cons d ds ih =>
    cases hlookup : links.lookup (linkKey (d.segment maxObjSize)) with
    | none =>
      rw [updateLinks_cons_of_notMem hlookup]
      simp only [true_iff]
      exact ⟨d, List.mem_cons_self, AList.lookup_eq_none.mp hlookup⟩
    | some link =>
      have hmem : linkKey (d.segment maxObjSize) ∈ links := AList.lookup_isSome.mp (by rw [hlookup]; rfl)
      rw [updateLinks_cons_of_mem hlookup]
      simp only [ih]
      constructor
      · rintro ⟨e, he, hne⟩
        exact ⟨e, List.mem_cons_of_mem _ he, hne⟩
      · rintro ⟨e, he, hne⟩
        rcases List.mem_cons.mp he with rfl | he
        · exact absurd hmem hne
        · exact ⟨e, he, hne⟩

theorem updateLinks_unchanged {maxObjSize : Nat} {ds : List DataDistribution} {links : Links}
    (h : (updateLinks maxObjSize ds links).2.2 = false) : (updateLinks maxObjSize ds links).2.1 = links := by
  induction ds with
  | nil => rfl
  | cons d ds ih =>
    cases hlookup : links.lookup (linkKey (d.segment maxObjSize)) with
    | none =>
      rw [updateLinks_cons_of_notMem hlookup] at h
      cases h
    | some link =>
      rw [updateLinks_cons_of_mem hlookup] at h ⊢
      exact ih h

/-- `d'` is `d`, sent to the object that the links have for its segment. -/
structure SentTo (maxObjSize : Nat) (links : Links) (d d' : DataDistribution) : Prop where
  source : d'.sourceData = d.sourceData
  position : d'.destinationData.position = d.destinationData.position % maxObjSize
  link : ∃ link, links.lookup (linkKey (d.segment maxObjSize)) = some link ∧ d'.destinationData.id = link.id ∧
    d'.destinationData.storageIndex = link.storageIndex

/-- A store into an existing file sends every distribution to the object its segment is linked to. -/
theorem updateLinks_sentTo (maxObjSize : Nat) (ds : List DataDistribution) (links : Links) :
    List.Forall₂ (SentTo maxObjSize (updateLinks maxObjSize ds links).2.1) ds (updateLinks maxObjSize ds links).1 := by
  induction ds generalizing links with
  | nil => exact .nil
  | cons d ds ih =>
    cases hlookup : links.lookup (linkKey (d.segment maxObjSize)) with
    | none =>
      rw [updateLinks_cons_of_notMem hlookup]
      refine .cons ⟨rfl, rfl, freshLink maxObjSize d, ?_, rfl, rfl⟩ (ih _)
      exact (updateLinks_extends maxObjSize ds _).keeps _ _ (AList.lookup_insert _)
    | some link =>
      rw [updateLinks_cons_of_mem hlookup]
      exact .cons ⟨rfl, rfl, link, (updateLinks_extends maxObjSize ds _).keeps _ _ hlookup, rfl, rfl⟩ (ih _)

theorem exists_of_forall₂ {α β : Type} {R : α → β → Prop} {l : List α} {l' : List β} (h : List.Forall₂ R l l') :
    (∀ a ∈ l, ∃ b ∈ l', R a b) ∧ ∀ b ∈ l', ∃ a ∈ l, R a b := by
  induction h with
  | nil => simp
  | cons hab _ ih =>
    refine ⟨?_, ?_⟩
    · intro a ha
      rcases List.mem_cons.mp ha with rfl | ha
      · exact ⟨_, List.mem_cons_self, hab⟩
      · obtain ⟨b, hb, hrel⟩ := ih.1 a ha
        exact ⟨b, List.mem_cons_of_mem _ hb, hrel⟩
    · intro b hb
      rcases List.mem_cons.mp hb with rfl | hb
      · exact ⟨_, List.mem_cons_self, hab⟩
      · obtain ⟨a, ha, hrel⟩ := ih.2 b hb
        exact ⟨a, List.mem_cons_of_mem _ ha, hrel⟩

theorem updateLinks_mem {maxObjSize : Nat} {ds : List DataDistribution} {links : Links} {d' : DataDistribution}
    (hd' : d' ∈ (updateLinks maxObjSize ds links).1) :
    ∃ d ∈ ds, d'.sourceData = d.sourceData ∧
      d'.destinationData.position = d.destinationData.position % maxObjSize ∧
      ∃ link, (updateLinks maxObjSize ds links).2.1.lookup (linkKey (d.segment maxObjSize)) = some link ∧
        d'.destinationData.id = link.id ∧ d'.destinationData.storageIndex = link.storageIndex := by
  obtain ⟨d, hd, hsent⟩ := (exists_of_forall₂ (updateLinks_sentTo maxObjSize ds links)).2 d' hd'
  exact ⟨d, hd, hsent.source, hsent.position, hsent.link⟩

theorem updateLinks_singleton (maxObjSize : Nat) (d : DataDistribution) (links : Links) :
    ∃ d', (updateLinks maxObjSize [d] links).1 = [d'] ∧
      SentTo maxObjSize (updateLinks maxObjSize [d] links).2.1 d d' := by
  obtain ⟨d', ds', hsent, hrest, hlist⟩ := List.forall₂_cons_left_iff.mp (updateLinks_sentTo maxObjSize [d] links)
  rw [List.forall₂_nil_left_iff.mp hrest] at hlist
  exact ⟨d', hlist, hsent⟩

theorem updateLinks_sent {maxObjSize : Nat} {ds : List DataDistribution} {links : Links} {d : DataDistribution}
    (hd : d ∈ ds) :
    ∃ d' ∈ (updateLinks maxObjSize ds links).1, ∃ link,
      (updateLinks maxObjSize ds links).2.1.lookup (linkKey (d.segment maxObjSize)) = some link ∧
        d'.destinationData.id = link.id ∧ d'.destinationData.storageIndex = link.storageIndex := by
  obtain ⟨d', hd', hsent⟩ := (exists_of_forall₂ (updateLinks_sentTo maxObjSize ds links)).1 d hd
  exact ⟨d', hd', hsent.link⟩

/-! ## The record of extended links -/

theorem portable_iff_lookup {m : Metadata} :
    m.Portable ↔ ∀ key link, m.links.lookup key = some link → link.Portable := by
  constructor
  · intro h key link hlookup
    exact h ⟨key, link⟩ (AList.mem_lookup_iff.mp hlookup)
  · intro h e he
    exact h e.1 e.2 (AList.mem_lookup_iff.mpr he)

theorem Extends.portable {maxObjSize : Nat} {ds : List DataDistribution} {m m' : Metadata}
    (h : Extends maxObjSize ds m.links m'.links) (hm : m.Portable) : m'.Portable := by
  rw [portable_iff_lookup] at hm ⊢
  intro key link hlookup
  rcases h.fresh key link hlookup with hold | ⟨d, -, -, rfl⟩
  · exact hm key link hold
  · exact Or.inl rfl

section length

variable [Wire]

theorem updateLinks_length_le (maxObjSize : Nat) (ds : List DataDistribution) (m : Metadata) :
    m.serialize.length ≤
      ({ m with links := (updateLinks maxObjSize ds m.links).2.1 } : Metadata).serialize.length := by
  induction ds generalizing m with
  | nil => exact le_rfl
  | cons d ds ih =>
    cases hlookup : m.links.lookup (linkKey (d.segment maxObjSize)) with
    | none =>
      rw [updateLinks_cons_of_notMem hlookup]
      have hlt := m.serialize_insert_lt (AList.lookup_eq_none.mp hlookup) (freshLink maxObjSize d)
      exact hlt.le.trans (ih { m with
        links := m.links.insert (linkKey (d.segment maxObjSize)) (freshLink maxObjSize d) })
    | some link =>
      rw [updateLinks_cons_of_mem hlookup]
      exact ih m

/-- A record with a new link is longer. -/
theorem updateLinks_longer {maxObjSize : Nat} {ds : List DataDistribution} {m : Metadata}
    (h : (updateLinks maxObjSize ds m.links).2.2 = true) :
    m.serialize.length <
      ({ m with links := (updateLinks maxObjSize ds m.links).2.1 } : Metadata).serialize.length := by
  induction ds with
  | nil => cases h
  | cons d ds ih =>
    cases hlookup : m.links.lookup (linkKey (d.segment maxObjSize)) with
    | none =>
      rw [updateLinks_cons_of_notMem hlookup]
      have hlt := m.serialize_insert_lt (AList.lookup_eq_none.mp hlookup) (freshLink maxObjSize d)
      exact hlt.trans_le (updateLinks_length_le maxObjSize ds { m with
        links := m.links.insert (linkKey (d.segment maxObjSize)) (freshLink maxObjSize d) })
    | some link =>
      rw [updateLinks_cons_of_mem hlookup] at h ⊢
      exact ih h

end length

/-! ## Keys in order -/

theorem linkKey_of_lt {s : Nat} (h : s < 2 ^ 63) : linkKey s = s := by
  unfold linkKey
  exact Int.bmod_eq_of_le_mul_two (by omega) (by omega)

theorem inOrder_empty : InOrder ∅ := by
  intro s
  have hnot : s ∉ (∅ : Links) := AList.notMem_empty s
  have hlen : (∅ : Links).entries.length = 0 := rfl
  rw [hlen]
  constructor
  · exact fun h => absurd h hnot
  · rintro ⟨h, h'⟩
    exact absurd h' (by push_cast; omega)

theorem length_of_keys {links : Links} {n : Nat} (h : ∀ s : Int, s ∈ links ↔ 0 ≤ s ∧ s < n) :
    links.entries.length = n := by
  have hnodup : links.entries.keys.Nodup := links.nodupKeys
  have heq : links.entries.keys.toFinset = Finset.Ico (0 : Int) n := by
    ext s
    rw [List.mem_toFinset, Finset.mem_Ico, ← h s]
    exact AList.mem_keys.symm
  have hcard := congrArg Finset.card heq
  rw [List.toFinset_card_of_nodup hnodup, Int.card_Ico] at hcard
  simpa [List.keys] using hcard

theorem inOrder_of_keys {links : Links} {n : Nat} (h : ∀ s : Int, s ∈ links ↔ 0 ≤ s ∧ s < n) : InOrder links := by
  intro s
  rw [length_of_keys h]
  exact h s

/-- Segments are first touched in order, when the segments below `n` were touched before. -/
def Sequential (maxObjSize : Nat) : Nat → List DataDistribution → Prop
  | _, [] => True
  | n, d :: ds => d.segment maxObjSize ≤ n ∧ Sequential maxObjSize (max n (d.segment maxObjSize + 1)) ds

theorem Sequential.touched {maxObjSize : Nat} {ds : List DataDistribution} {n : Nat} (h : Sequential maxObjSize n ds) :
    ∃ n', n ≤ n' ∧ ∀ s : Nat, s < n' ↔ s < n ∨ ∃ d ∈ ds, s = d.segment maxObjSize := by
  induction ds generalizing n with
  | nil => exact ⟨n, le_rfl, by simp⟩
  | cons d ds ih =>
    obtain ⟨hd, hds⟩ := h
    obtain ⟨n', hle, htouched⟩ := ih hds
    refine ⟨n', le_of_max_le_left hle, fun s => ?_⟩
    rw [htouched]
    constructor
    · rintro (hlt | ⟨e, he, heq⟩)
      · rcases Nat.lt_or_ge s n with hs | hs
        · exact Or.inl hs
        · exact Or.inr ⟨d, List.mem_cons_self, by omega⟩
      · exact Or.inr ⟨e, List.mem_cons_of_mem _ he, heq⟩
    · rintro (hlt | ⟨e, he, heq⟩)
      · exact Or.inl (by omega)
      · rcases List.mem_cons.mp he with rfl | he
        · exact Or.inl (by omega)
        · exact Or.inr ⟨e, he, heq⟩

/-- A store whose segments come in order leaves the keys in order. -/
theorem Extends.inOrder {maxObjSize : Nat} {ds : List DataDistribution} {links links' : Links}
    (h : Extends maxObjSize ds links links') (horder : InOrder links)
    (hseq : Sequential maxObjSize links.entries.length ds) (hlt : ∀ d ∈ ds, d.segment maxObjSize < 2 ^ 63) :
    InOrder links' ∧ ∀ s : Nat, s < links'.entries.length ↔
      s < links.entries.length ∨ ∃ d ∈ ds, s = d.segment maxObjSize := by
  obtain ⟨n', hle, htouched⟩ := hseq.touched
  have hkeys : ∀ s : Int, s ∈ links' ↔ 0 ≤ s ∧ s < n' := by
    intro s
    rw [h.keys, horder s]
    constructor
    · rintro (hs | ⟨d, hd, heq⟩)
      · omega
      · rw [heq, linkKey_of_lt (hlt d hd)]
        have := (htouched (d.segment maxObjSize)).mpr (Or.inr ⟨d, hd, rfl⟩)
        omega
    · rintro ⟨hs, hs'⟩
      rcases (htouched s.toNat).mp (by omega) with hold | ⟨d, hd, heq⟩
      · exact Or.inl (by omega)
      · refine Or.inr ⟨d, hd, ?_⟩
        rw [linkKey_of_lt (hlt d hd), ← heq]
        omega
  refine ⟨inOrder_of_keys hkeys, fun s => ?_⟩
  rw [length_of_keys hkeys]
  exact htouched s

end Symbios
