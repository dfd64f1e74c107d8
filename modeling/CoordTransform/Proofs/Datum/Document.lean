import CoordTransform.Datum.Document
import CoordTransform.Proofs.Computation

/-!
# Catalogues of Documents

A catalogue document is built in two passes. The first adds the datums, and refuses a name that is
like an earlier one. The second looks the targets of the records up by their names, and appends
the records to datums that it looks up by their names, too, while it changes the catalogue.

Since the names are distinct and no pass changes a name, every look-up finds the only datum of its
name, so that the catalogue has the datums of the document in order, each with its own records.
-/

namespace CoordTransform

/-! ## What a document describes -/

/-- Every name is used once, every ellipsoid can be built on its own, and every target is the name
of some datum of the document. -/
structure CatalogDocument.IsSound (document : CatalogDocument) : Prop where
  distinct : document.datums.Pairwise fun x y => Text.alike x.name y.name = false
  ellipsoids : ∀ entry ∈ document.datums, ∀ x ∈ entry.ellipsoid, ∃ e, x.build = .ok e
  targets : ∀ entry ∈ document.datums, ∀ s ∈ entry.shifts,
    ∃ other ∈ document.datums, Text.alike other.name s.target = true

/-- An ellipsoid is what its description builds, and there is none without a description. -/
abbrev EllipsoidEntry.Gives (x : Option EllipsoidEntry) (e : Option Ellipsoid) : Prop :=
  Option.Rel (fun x e => x.build = .ok e) x e

/-- A record has the numbers of its entry, and leads to the only datum with the name of its
target. -/
structure ShiftEntry.Describes (document : CatalogDocument) (s : ShiftEntry)
    (p : BursaWolf Float) : Prop where
  numbers : p.toList = [s.dx, s.dy, s.dz, s.ex, s.ey, s.ez, s.ppm]
  target (k : Nat) : (∃ entry, document.datums[k]? = some entry ∧
    Text.alike entry.name s.target = true) ↔ k = p.target

/-- A datum has the name, the ellipsoid and the records of its entry, in order. -/
structure DatumEntry.Describes (document : CatalogDocument) (entry : DatumEntry)
    (d : Datum Float) : Prop where
  name : d.name = entry.name
  ellipsoid : EllipsoidEntry.Gives entry.ellipsoid d.ellipsoid
  shifts : List.Forall₂ (ShiftEntry.Describes document) entry.shifts d.shifts

/-- A catalogue has the datums of a document, in order. -/
def CatalogDocument.Describes (document : CatalogDocument) (c : Catalog Float) : Prop :=
  List.Forall₂ (DatumEntry.Describes document) document.datums c.datums

/-! ## Lists -/

/-- Each element has a partner when there is a list of partners. -/
theorem exists_forall₂ {β γ : Type} {R : β → γ → Prop} {xs : List β} :
    (∃ ys, List.Forall₂ R xs ys) ↔ ∀ x ∈ xs, ∃ y, R x y := by
  induction xs with
  | nil => exact iff_of_true ⟨[], .nil⟩ fun _ => nofun
  | cons x xs ih =>
    rw [List.forall_mem_cons, ← ih]
    constructor
    · rintro ⟨_, _ | ⟨hx, hxs⟩⟩
      exact ⟨⟨_, hx⟩, _, hxs⟩
    · rintro ⟨⟨y, hy⟩, ys, hys⟩
      exact ⟨y :: ys, .cons hy hys⟩

/-! ## Names -/

/-- No two names are alike. -/
def DistinctNames (names : List String) : Prop :=
  names.Pairwise fun s t => Text.alike s t = false

/-- The number of the first name that is like a given one. -/
def numberOf? (names : List String) (name : String) : Option Nat :=
  names.findIdx? (Text.alike · name)

section

variable {names : List String} {name : String} {k : Nat}

/-- Among distinct names, the first one that fits is the only one. -/
theorem numberOf?_eq_some (hnames : DistinctNames names) : numberOf? names name = some k ↔
    ∃ s, names[k]? = some s ∧ Text.alike s name = true := by
  rw [numberOf?, List.findIdx?_eq_some_iff_getElem]
  constructor
  · rintro ⟨hk, halike, -⟩
    exact ⟨_, List.getElem?_eq_getElem hk, halike⟩
  · rintro ⟨s, hs, halike⟩
    obtain ⟨hk, rfl⟩ := List.getElem?_eq_some_iff.1 hs
    refine ⟨hk, halike, fun j hj halike' => ?_⟩
    -- Two names that are like a third one are alike.
    have hne : Text.alike names[j] names[k] = false :=
      List.pairwise_iff_getElem.1 hnames j k _ hk hj
    rw [Text.alike_iff] at halike halike'
    rw [(Text.alike_iff _ _).2 (halike'.trans halike.symm)] at hne
    cases hne

theorem exists_numberOf? : (∃ k, numberOf? names name = some k) ↔
    ∃ s ∈ names, Text.alike s name = true := by
  rw [← Option.isSome_iff_exists, numberOf?, List.findIdx?_isSome, List.any_eq_true]

end

namespace Catalog

/-- The names of the datums, in order. -/
def names (c : Catalog Float) : List String := c.datums.map Datum.name

variable {c : Catalog Float}

theorem find?_eq (c : Catalog Float) (name : String) :
    c.find? name = numberOf? c.names name := by
  rw [find?, numberOf?, names, List.findIdx?_map]
  rfl

theorem names_addShift (source : Nat) (p : BursaWolf Float) :
    (c.addShift source p).names = c.names := by
  refine List.ext_getElem? fun k => ?_
  simp only [names, addShift, List.getElem?_map, List.getElem?_modify]
  cases c.datums[k]? with
  | none => rfl
  | some d =>
    by_cases hk : source = k <;> simp [hk]

theorem names_add (c : Catalog Float) (d : Datum Float) : (c.add d).names = c.names ++ [d.name] :=
  List.map_append

/-- Records that are added to a datum stand at the end of its own. -/
theorem foldl_addShift {d : Datum Float} {before after : List (Datum Float)}
    (ps : List (BursaWolf Float)) : ps.foldl (addShift · before.length) ⟨before ++ d :: after⟩ =
      ⟨before ++ { d with shifts := d.shifts ++ ps } :: after⟩ := by
  -- The datum is generalized, since each record changes the one that the next is added to.
  induction ps generalizing d with
  | nil => simp
  | cons p ps ih =>
    have hadd : addShift ⟨before ++ d :: after⟩ before.length p =
        ⟨before ++ { d with shifts := d.shifts ++ [p] } :: after⟩ := by
      rw [addShift, List.modify_eq_take_cons_drop (by simp)]
      simp
    rw [List.foldl_cons, hadd, ih]
    simp

end Catalog

namespace CatalogDocument

variable {entry : DatumEntry} {entries : List DatumEntry} {c c' : Catalog Float}

/-! ## Adding the datums -/

theorem exists_gives {x : Option EllipsoidEntry} :
    (∃ e, EllipsoidEntry.Gives x e) ↔ ∀ y ∈ x, ∃ e, y.build = .ok e := by
  cases x with
  | none => exact iff_of_true ⟨none, .none⟩ nofun
  | some y =>
    constructor
    · rintro ⟨_, ⟨h⟩⟩ _ ⟨⟩
      exact ⟨_, h⟩
    · intro h
      obtain ⟨e, he⟩ := h y rfl
      exact ⟨some e, .some he⟩

theorem addDatum_eq_ok : addDatum c entry = .ok c' ↔
    (∀ s ∈ c.names, Text.alike s entry.name = false) ∧
      ∃ e, EllipsoidEntry.Gives entry.ellipsoid e ∧ c.add ⟨entry.name, e, []⟩ = c' := by
  -- A name is new when it is none of the names of the catalogue.
  have hnew : (c.find? entry.name).isSome = false ↔
      ∀ s ∈ c.names, Text.alike s entry.name = false := by
    rw [Catalog.find?_eq, numberOf?, List.findIdx?_isSome, List.any_eq_false]
    simp only [Bool.not_eq_true]
  rw [← hnew]
  unfold addDatum
  cases (c.find? entry.name).isSome with
  | true => exact ⟨nofun, fun h => nomatch h.1⟩
  | false =>
    cases entry.ellipsoid with
    | none =>
      constructor
      · rintro ⟨⟩
        exact ⟨rfl, none, .none, rfl⟩
      · rintro ⟨-, _, ⟨⟩, rfl⟩
        rfl
    | some x =>
      constructor
      · intro h
        obtain ⟨e, he, ⟨⟩⟩ := bind_eq_ok.1 h
        exact ⟨rfl, some e, .some he, rfl⟩
      · rintro ⟨-, _, ⟨he⟩, rfl⟩
        exact bind_eq_ok.2 ⟨_, he, rfl⟩

/-- A datum has the name and the ellipsoid of its entry, and no records yet. -/
def Adds (entry : DatumEntry) (d : Datum Float) : Prop :=
  ∃ e, EllipsoidEntry.Gives entry.ellipsoid e ∧ ⟨entry.name, e, []⟩ = d

theorem exists_adds : (∃ d, Adds entry d) ↔ ∀ x ∈ entry.ellipsoid, ∃ e, x.build = .ok e := by
  rw [← exists_gives]
  exact ⟨fun ⟨_, e, he, _⟩ => ⟨e, he⟩, fun ⟨e, he⟩ => ⟨_, e, he, rfl⟩⟩

/-- The first pass appends the datums of the entries, whose names must be new. -/
theorem foldlM_addDatum : entries.foldlM addDatum c = .ok c' ↔
    (DistinctNames (entries.map DatumEntry.name) ∧
      ∀ s ∈ c.names, ∀ entry ∈ entries, Text.alike s entry.name = false) ∧
    ∃ ds, List.Forall₂ Adds entries ds ∧ ⟨c.datums ++ ds⟩ = c' := by
  -- The catalogue is generalized: every entry is registered behind the ones before it.
  induction entries generalizing c with
  | nil =>
    constructor
    · rintro ⟨⟩
      exact ⟨⟨.nil, fun _ _ => nofun⟩, [], .nil, by rw [List.append_nil]⟩
    · rintro ⟨-, _, ⟨⟩, rfl⟩
      rw [List.append_nil]
      rfl
  | cons entry entries ih =>
    rw [List.foldlM_cons, bind_eq_ok]
    simp only [addDatum_eq_ok, ih]
    constructor
    · rintro ⟨_, ⟨hnew, e, he, rfl⟩, ⟨hdistinct, hothers⟩, ds, hds, rfl⟩
      rw [Catalog.names_add] at hothers
      -- The name of the first entry is among those that all later ones are compared with.
      have hfirst : ∀ other ∈ entries, Text.alike entry.name other.name = false :=
        hothers entry.name (by simp)
      refine ⟨⟨List.pairwise_cons.2 ⟨List.forall_mem_map.2 hfirst, hdistinct⟩, fun s hs => ?_⟩,
        _ :: ds, .cons ⟨e, he, rfl⟩ hds, by simp [Catalog.add]⟩
      exact List.forall_mem_cons.2 ⟨hnew s hs, hothers s (List.mem_append_left _ hs)⟩
    · rintro ⟨⟨hdistinct, hothers⟩, _, hds, rfl⟩
      obtain ⟨hfirst, hdistinct⟩ := List.pairwise_cons.1 hdistinct
      cases hds with
      | cons hd hds =>
        obtain ⟨e, he, rfl⟩ := hd
        refine ⟨_, ⟨fun s hs => hothers s hs entry List.mem_cons_self, e, he, rfl⟩,
          ⟨hdistinct, fun s hs other hother => ?_⟩, _, hds, by simp [Catalog.add]⟩
        rw [Catalog.names_add, List.mem_append, List.mem_singleton] at hs
        -- A name of the catalogue was there before, or is that of the first entry.
        obtain hs | rfl := hs
        · exact hothers s hs other (List.mem_cons_of_mem _ hother)
        · exact List.forall_mem_map.1 hfirst other hother

theorem build_ellipsoid_ne_vanishedDatum (x : EllipsoidEntry) (name : String) :
    x.build ≠ .error (.vanishedDatum name) := by
  intro h
  cases x with
  | named known =>
    rw [EllipsoidEntry.build] at h
    split at h
    · cases h
    · cases h
  | custom =>
    obtain ⟨cause, -, hcause⟩ := mapError_eq_error.1 h
    cases hcause

theorem addDatum_ne_vanishedDatum (c : Catalog Float) (entry : DatumEntry) (name : String) :
    addDatum c entry ≠ .error (.vanishedDatum name) := by
  unfold addDatum
  cases (c.find? entry.name).isSome with
  | true => exact nofun
  | false =>
    cases entry.ellipsoid with
    | none => exact nofun
    | some x =>
      intro h
      -- Only the ellipsoid of the entry can fail, and with an error of its own.
      obtain hx | ⟨e, -, hadd⟩ := bind_eq_error.1 h
      · exact build_ellipsoid_ne_vanishedDatum x name hx
      · cases hadd

/-- The first pass fails over a name that is taken or over an ellipsoid. -/
theorem foldlM_addDatum_ne_vanishedDatum (entries : List DatumEntry) (c : Catalog Float)
    (name : String) : entries.foldlM addDatum c ≠ .error (.vanishedDatum name) := by
  induction entries generalizing c with
  | nil => exact nofun
  | cons entry entries ih =>
    intro h
    obtain hadd | ⟨c', -, hrest⟩ := bind_eq_error.1 h
    · exact addDatum_ne_vanishedDatum c entry name hadd
    · exact ih c' hrest

/-! ## Connecting the records -/

/-- A record has the numbers of its entry and leads to the datum that is found. -/
def Resolves (names : List String) (s : ShiftEntry) (p : BursaWolf Float) : Prop :=
  ∃ k, numberOf? names s.target = some k ∧ s.toShift k = p

theorem addShift_eq_ok {name : String} {s : ShiftEntry} {source : Nat} :
    addShift name source c s = .ok c' ↔
      ∃ p, Resolves c.names s p ∧ c.addShift source p = c' := by
  unfold addShift
  rw [Catalog.find?_eq]
  cases htarget : numberOf? c.names s.target with
  | none => exact ⟨nofun, fun ⟨_, ⟨_, hk, _⟩, _⟩ => nomatch htarget.symm.trans hk⟩
  | some k =>
    constructor
    · rintro ⟨⟩
      exact ⟨_, ⟨k, htarget, rfl⟩, rfl⟩
    · rintro ⟨_, ⟨_, hk, rfl⟩, rfl⟩
      cases htarget.symm.trans hk
      rfl

/-- The records of one entry are appended to those of its datum. -/
theorem foldlM_addShift {name : String} {shifts : List ShiftEntry} {source : Nat} :
    shifts.foldlM (addShift name source) c = .ok c' ↔
      ∃ ps, List.Forall₂ (Resolves c.names) shifts ps ∧
        ps.foldl (Catalog.addShift · source) c = c' := by
  -- The catalogue is generalized; adding a record keeps the names that targets are looked up under.
  induction shifts generalizing c with
  | nil =>
    constructor
    · rintro ⟨⟩
      exact ⟨[], .nil, rfl⟩
    · rintro ⟨_, ⟨⟩, rfl⟩
      rfl
  | cons s shifts ih =>
    rw [List.foldlM_cons, bind_eq_ok]
    simp only [addShift_eq_ok, ih]
    constructor
    · rintro ⟨_, ⟨p, hp, rfl⟩, ps, hps, rfl⟩
      rw [Catalog.names_addShift] at hps
      exact ⟨p :: ps, .cons hp hps, rfl⟩
    · rintro ⟨_, hps, rfl⟩
      cases hps with
      | cons hp hps =>
        refine ⟨_, ⟨_, hp, rfl⟩, _, ?_, rfl⟩
        rwa [Catalog.names_addShift]

/-- The records of an entry are added to the datum that has its name. -/
theorem addShifts_eq {source : Nat} (hsource : numberOf? c.names entry.name = some source) :
    addShifts c entry = entry.shifts.foldlM (addShift entry.name source) c := by
  unfold addShifts
  rw [Catalog.find?_eq, hsource]

/-- The second pass gives each datum the records of its entry. -/
theorem foldlM_addShifts {before ds : List (Datum Float)} (hds : List.Forall₂ Adds entries ds)
    (hc : c.datums = before ++ ds) (hnumbers : ∀ k entry, entries[k]? = some entry →
      numberOf? c.names entry.name = some (before.length + k)) :
    entries.foldlM addShifts c = .ok c' ↔
      ∃ pss, List.Forall₂ (fun entry => List.Forall₂ (Resolves c.names) entry.shifts) entries pss ∧
        ⟨before ++ List.zipWith (fun d ps => { d with shifts := ps }) ds pss⟩ = c' := by
  induction hds generalizing c before with
  | nil =>
    rw [List.append_nil] at hc
    constructor
    · rintro ⟨⟩
      exact ⟨[], .nil, by rw [List.zipWith_nil_left, List.append_nil, ← hc]⟩
    · rintro ⟨_, ⟨⟩, rfl⟩
      rw [List.zipWith_nil_left, List.append_nil, ← hc]
      rfl
  | @cons entry d entries ds hd hds ih =>
    obtain ⟨e, -, rfl⟩ := hd
    have hentry : numberOf? c.names entry.name = some before.length := hnumbers 0 entry rfl
    have hfirst : ∀ ps : List (BursaWolf Float), ps.foldl (Catalog.addShift · before.length) c =
        ⟨before ++ [⟨entry.name, e, ps⟩] ++ ds⟩ := by
      intro ps
      obtain ⟨datums⟩ := c
      subst hc
      rw [Catalog.foldl_addShift, List.nil_append, List.append_assoc, List.singleton_append]
    have hnames : ∀ ps : List (BursaWolf Float),
        Catalog.names ⟨before ++ [⟨entry.name, e, ps⟩] ++ ds⟩ = c.names := by
      intro ps
      simp [Catalog.names, hc]
    -- The other datums have the numbers behind those that are done.
    have hrest := fun ps : List (BursaWolf Float) =>
      ih (c := ⟨before ++ [⟨entry.name, e, ps⟩] ++ ds⟩) rfl fun k other hother => by
        rw [hnames, hnumbers (k + 1) other hother]
        simp [Nat.add_assoc, Nat.add_comm 1]
    rw [List.foldlM_cons, bind_eq_ok]
    simp only [addShifts_eq hentry, foldlM_addShift, hfirst]
    constructor
    · rintro ⟨_, ⟨ps, hps, rfl⟩, h⟩
      obtain ⟨pss, hpss, rfl⟩ := (hrest ps).1 h
      rw [hnames] at hpss
      exact ⟨ps :: pss, .cons hps hpss, by simp⟩
    · rintro ⟨_, hpss, rfl⟩
      cases hpss with
      | @cons _ ps _ pss hps hpss =>
        refine ⟨_, ⟨ps, hps, rfl⟩, (hrest ps).2 ⟨pss, ?_, by simp⟩⟩
        rwa [hnames]

/-! ## Errors of the second pass -/

/-- A computation on catalogues succeeds and keeps the names, or a target is unknown. -/
def KeepsNames (c : Catalog Float) (r : Except CatalogError (Catalog Float)) : Prop :=
  (∃ c', r = .ok c' ∧ c'.names = c.names) ∨ ∃ datum target, r = .error (.unknownTarget datum target)

/-- Steps that keep the names are made one after the other, for as long as they only rely on
names. -/
theorem keepsNames_foldlM {β : Type}
    {step : Catalog Float → β → Except CatalogError (Catalog Float)} {xs : List β}
    (hstep : ∀ x ∈ xs, ∀ c', c'.names = c.names → KeepsNames c' (step c' x)) :
    KeepsNames c (xs.foldlM step c) := by
  suffices ∀ c', c'.names = c.names → KeepsNames c (xs.foldlM step c') from this c rfl
  -- The induction is for every catalogue with the names of the first one.
  induction xs with
  | nil => exact fun c' hc' => .inl ⟨c', rfl, hc'⟩
  | cons x xs ih =>
    intro c' hc'
    rw [List.foldlM_cons]
    obtain ⟨next, hnext, hnames⟩ | ⟨datum, target, herror⟩ := hstep x List.mem_cons_self c' hc'
    · rw [hnext]
      exact ih (fun y hy => hstep y (List.mem_cons_of_mem x hy)) next (hnames.trans hc')
    · rw [herror]
      exact .inr ⟨datum, target, rfl⟩

theorem keepsNames_addShift (name : String) (source : Nat) (c : Catalog Float) (s : ShiftEntry) :
    KeepsNames c (addShift name source c s) := by
  unfold addShift
  cases c.find? s.target with
  | none => exact .inr ⟨name, s.target, rfl⟩
  | some target => exact .inl ⟨_, rfl, Catalog.names_addShift source _⟩

theorem keepsNames_addShifts (hentry : ∃ s ∈ c.names, Text.alike s entry.name = true) :
    KeepsNames c (addShifts c entry) := by
  obtain ⟨source, hsource⟩ := exists_numberOf?.2 hentry
  rw [addShifts_eq hsource]
  exact keepsNames_foldlM fun s _ c' _ => keepsNames_addShift entry.name source c' s

/-! ## Both passes -/

theorem names_of_adds {ds : List (Datum Float)} (hds : List.Forall₂ Adds entries ds) :
    ds.map Datum.name = entries.map DatumEntry.name := by
  have heq : List.Forall₂ (· = ·) (ds.map Datum.name) (entries.map DatumEntry.name) := by
    rw [List.forall₂_map_left_iff, List.forall₂_map_right_iff]
    refine hds.flip.imp ?_
    rintro d entry ⟨e, -, rfl⟩
    rfl
  rwa [List.forall₂_eq_eq_eq] at heq

variable {document : CatalogDocument}

/-- The names of a document, in order. -/
def names (document : CatalogDocument) : List String := document.datums.map DatumEntry.name

theorem build_eq_ok : document.build = .ok c ↔ DistinctNames document.names ∧
    ∃ ds, List.Forall₂ Adds document.datums ds ∧
      ∃ pss, List.Forall₂ (fun entry => List.Forall₂ (Resolves document.names) entry.shifts)
          document.datums pss ∧
        ⟨List.zipWith (fun d ps => { d with shifts := ps }) ds pss⟩ = c := by
  have hconnect : ∀ ds, DistinctNames document.names → List.Forall₂ Adds document.datums ds →
      (document.datums.foldlM addShifts ⟨ds⟩ = .ok c ↔
        ∃ pss, List.Forall₂ (fun entry => List.Forall₂ (Resolves document.names) entry.shifts)
            document.datums pss ∧
          ⟨List.zipWith (fun d ps => { d with shifts := ps }) ds pss⟩ = c) := by
    intro ds hdistinct hds
    have hnames : Catalog.names ⟨ds⟩ = document.names := names_of_adds hds
    have hdatums : (⟨ds⟩ : Catalog Float).datums = [] ++ ds := rfl
    rw [foldlM_addShifts hds hdatums, hnames]
    · rfl
    · intro k entry hentry
      rw [hnames, List.length_nil, Nat.zero_add]
      refine (numberOf?_eq_some hdistinct).2 ⟨entry.name, ?_, (Text.alike_iff _ _).2 rfl⟩
      rw [names, List.getElem?_map, hentry]
      rfl
  -- The first pass starts without datums, so no name has been used before.
  unfold build
  rw [bind_eq_ok]
  simp only [foldlM_addDatum]
  constructor
  · rintro ⟨_, ⟨⟨hdistinct, -⟩, ds, hds, rfl⟩, h⟩
    exact ⟨hdistinct, ds, hds, (hconnect ds hdistinct hds).1 h⟩
  · rintro ⟨hdistinct, ds, hds, h⟩
    exact ⟨_, ⟨⟨hdistinct, fun _ => nofun⟩, ds, hds, rfl⟩, (hconnect ds hdistinct hds).2 h⟩

/-- No datum vanishes between the passes: the second one finds each datum under its name. -/
theorem build_ne_vanishedDatum (document : CatalogDocument) (name : String) :
    document.build ≠ .error (.vanishedDatum name) := by
  intro h
  obtain hfirst | ⟨c, hfirst, hsecond⟩ := bind_eq_error.1 h
  · exact foldlM_addDatum_ne_vanishedDatum _ _ name hfirst
  · -- The second pass starts with the names of the document, which those of all entries are among.
    obtain ⟨-, ds, hds, rfl⟩ := foldlM_addDatum.1 hfirst
    have hnames : Catalog.names ⟨Catalog.empty.datums ++ ds⟩ = document.names := names_of_adds hds
    have hkeeps : KeepsNames ⟨Catalog.empty.datums ++ ds⟩
        (document.datums.foldlM addShifts ⟨Catalog.empty.datums ++ ds⟩) := by
      refine keepsNames_foldlM fun entry hentry c' hc' => keepsNames_addShifts ?_
      rw [hc', hnames]
      exact ⟨entry.name, List.mem_map_of_mem hentry, (Text.alike_iff _ _).2 rfl⟩
    obtain ⟨c', hc', -⟩ | ⟨datum, target, herror⟩ := hkeeps
    · cases hc'.symm.trans hsecond
    · cases herror.symm.trans hsecond

theorem exists_resolves {s : ShiftEntry} : (∃ p, Resolves document.names s p) ↔
    ∃ other ∈ document.datums, Text.alike other.name s.target = true := by
  have hnumber : (∃ p, Resolves document.names s p) ↔
      ∃ k, numberOf? document.names s.target = some k :=
    ⟨fun ⟨_, k, hk, _⟩ => ⟨k, hk⟩, fun ⟨k, hk⟩ => ⟨_, k, hk, rfl⟩⟩
  rw [hnumber, exists_numberOf?]
  simp [names]

/-- The target of a record is the only datum with its name. -/
theorem describes_of_resolves (hdistinct : DistinctNames document.names) {s : ShiftEntry}
    {p : BursaWolf Float} (h : Resolves document.names s p) : s.Describes document p := by
  obtain ⟨k, hk, rfl⟩ := h
  refine ⟨rfl, fun j => ?_⟩
  have hj : numberOf? document.names s.target = some j ↔ _ := numberOf?_eq_some hdistinct
  rw [hk, Option.some.injEq, names, List.getElem?_map] at hj
  simp only [Option.map_eq_some_iff, exists_exists_and_eq_and] at hj
  exact hj.symm.trans eq_comm

theorem describes_of_adds (hdistinct : DistinctNames document.names) {ds : List (Datum Float)}
    {pss : List (List (BursaWolf Float))} (hds : List.Forall₂ Adds entries ds)
    (hpss : List.Forall₂ (fun entry => List.Forall₂ (Resolves document.names) entry.shifts)
      entries pss) :
    List.Forall₂ (DatumEntry.Describes document) entries
      (List.zipWith (fun d ps => { d with shifts := ps }) ds pss) := by
  induction hds generalizing pss with
  | nil => exact .nil
  | cons hd _ ih =>
    cases hpss with
    | cons hps hpss =>
      obtain ⟨e, he, rfl⟩ := hd
      exact .cons ⟨rfl, he, hps.imp fun _ _ => describes_of_resolves hdistinct⟩ (ih hpss)

/-- A document is built into a catalogue when its names are distinct, its ellipsoids can be built
and its targets are names of its datums, earlier or later ones or the datum itself. The catalogue
has the datums of the document in order. -/
theorem build_faithful (document : CatalogDocument) :
    ((∃ c, document.build = .ok c) ↔ document.IsSound) ∧
      ∀ c, document.build = .ok c → document.Describes c := by
  refine ⟨⟨?_, fun h => ?_⟩, fun c hc => ?_⟩
  · -- Of a catalogue that was built, each entry has a datum, and each of its shifts a record.
    rintro ⟨c, hc⟩
    obtain ⟨hdistinct, ds, hds, pss, hpss, -⟩ := build_eq_ok.1 hc
    refine ⟨List.pairwise_map.1 hdistinct, fun entry hentry => ?_, fun entry hentry s hs => ?_⟩
    · exact exists_adds.1 (exists_forall₂.1 ⟨ds, hds⟩ entry hentry)
    · have hshifts := exists_forall₂.1 ⟨pss, hpss⟩ entry hentry
      exact exists_resolves.1 (exists_forall₂.1 hshifts s hs)
  · -- The other way round, datums and records of all entries exist one by one, and so as lists.
    have hadds : ∃ ds, List.Forall₂ Adds document.datums ds :=
      exists_forall₂.2 fun entry hentry => exists_adds.2 (h.ellipsoids entry hentry)
    have hresolves : ∃ pss, List.Forall₂
        (fun entry => List.Forall₂ (Resolves document.names) entry.shifts) document.datums pss :=
      exists_forall₂.2 fun entry hentry => exists_forall₂.2 fun s hs =>
        exists_resolves.2 (h.targets entry hentry s hs)
    obtain ⟨ds, hds⟩ := hadds
    obtain ⟨pss, hpss⟩ := hresolves
    exact ⟨_, build_eq_ok.2 ⟨List.pairwise_map.2 h.distinct, ds, hds, pss, hpss, rfl⟩⟩
  · obtain ⟨hdistinct, ds, hds, pss, hpss, rfl⟩ := build_eq_ok.1 hc
    exact describes_of_adds hdistinct hds hpss

/-- Two datums with records to each other, and one of them with a record to itself. -/
def circularDocument : CatalogDocument :=
  ⟨[⟨"ED50", some (.named "GRS 80"), [⟨"wgs84", -87, -98, -121, 0, 0, 0, 0⟩,
      ⟨"Ed50", 0, 0, 0, 0, 0, 0, 1⟩]⟩,
    ⟨"WGS84", none, [⟨"ed50", 87, 98, 121, 0, 0, 0, 0⟩]⟩]⟩

theorem circularDocument_sound : circularDocument.IsSound where
  distinct := by decide +kernel
  ellipsoids := by
    intro entry hentry x hx
    simp only [circularDocument, List.mem_cons, List.not_mem_nil, or_false] at hentry
    obtain rfl | rfl := hentry
    · cases hx
      exact ⟨_, rfl⟩
    · cases hx
  targets := by decide +kernel

theorem build_faithful_circular : ∃ c, circularDocument.build = .ok c ∧
    c.datums.map (fun d => (d.name, d.shifts.map BursaWolf.target)) =
      [("ED50", [1, 0]), ("WGS84", [0])] := by
  obtain ⟨hbuilds, hdescribes⟩ := build_faithful circularDocument
  obtain ⟨⟨datums⟩, hc⟩ := hbuilds.2 circularDocument_sound
  have hdatums : List.Forall₂ _ _ datums := hdescribes _ hc
  obtain _ | ⟨hfirst, _ | ⟨hsecond, _ | _⟩⟩ := hdatums
  obtain ⟨hname, -, hshifts⟩ := hfirst
  obtain ⟨hname', -, hshifts'⟩ := hsecond
  obtain ⟨p, _, hp, hself, hlist⟩ := List.forall₂_cons_left_iff.1 hshifts
  obtain ⟨q, _, hq, hnone, rfl⟩ := List.forall₂_cons_left_iff.1 hself
  obtain ⟨r, _, hr, hnone', hlist'⟩ := List.forall₂_cons_left_iff.1 hshifts'
  cases hnone
  cases hnone'
  -- The targets are numbers of the datums by their names, before and behind the entry.
  have hlater : 1 = p.target := (hp.target 1).1 ⟨_, rfl, by decide⟩
  have hitself : 0 = q.target := (hq.target 0).1 ⟨_, rfl, by decide⟩
  have hearlier : 0 = r.target := (hr.target 0).1 ⟨_, rfl, by decide⟩
  refine ⟨_, hc, ?_⟩
  simp only [List.map_cons, List.map_nil, hname, hname', hlist, hlist', ← hlater, ← hitself,
    ← hearlier]

end CatalogDocument

end CoordTransform
