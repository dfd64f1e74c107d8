import CoordTransform.Proofs.Method.Parameters

/-!
# Runs of Settings

A parameter list is made by setting names one after the other. What a run of settings leaves behind
can be told without following the run: the names are those that are like no name before them, in
the order and the spelling in which they were set first, and the value under a name is the last one
that was set (`records_ofList`). This determines the list.

So when a name is set again, only the place and the spelling of its first setting remain, and the
value of its last one (`ofList_of_overwritten`).
-/

namespace CoordTransform

/-! ## Names that are alike -/

namespace Text

theorem alike_comm (s t : String) : alike s t = alike t s := Bool.beq_comm

theorem alike_congr_left {s t : String} (h : alike s t = true) (u : String) :
    alike s u = alike t u := by
  rw [alike_iff] at h
  rw [alike, alike, h]

theorem alike_eq_false_iff {s t : String} : alike s t = false ↔ lower s ≠ lower t := by
  rw [← Bool.not_eq_true, alike_iff]

end Text

namespace Parameters

variable {α : Type}

/-! ## One setting -/

/-- A setting gives its value to the names that are like its own, and to no others. -/
theorem get?_set (ps : Parameters α) (name : String) (value : ParameterValue α) (query : String) :
    (ps.set name value).get? query =
      if Text.alike name query then some value else ps.get? query := by
  obtain ⟨es⟩ := ps
  unfold get? set
  dsimp only
  induction es with
  | nil => by_cases h : Text.alike name query = true <;> simp [setEntry, h]
  | cons e es ih =>
    rw [setEntry]
    split
    · next hlike =>
      -- The entry keeps its spelling, and is found under the same names as before.
      have hquery : Text.alike e.1 query = Text.alike name query :=
        Text.alike_congr_left hlike query
      simp only [List.find?_cons, hquery]
      cases Text.alike name query <;> rfl
    · next hunlike =>
      rw [List.find?_cons, List.find?_cons]
      split
      · next hfound =>
        have hother : Text.alike name query ≠ true := fun h =>
          hunlike ((Text.alike_congr_left hfound name).trans
            ((Text.alike_comm query name).trans h))
        rw [if_neg hother]
      · exact ih

/-- A setting adds its name at the end, unless there is one like it. -/
theorem names_set (ps : Parameters α) (name : String) (value : ParameterValue α) :
    (ps.set name value).entries.map Prod.fst =
      if (ps.entries.map Prod.fst).any (Text.alike name) then ps.entries.map Prod.fst
      else ps.entries.map Prod.fst ++ [name] := by
  have hany : (ps.entries.map Prod.fst).any (Text.alike name) = true ↔
      ∃ e ∈ ps.entries, Text.alike e.1 name = true := by
    simp only [List.any_map, List.any_eq_true, Function.comp_apply, Text.alike_comm name]
  split
  · -- There is a name like the new one, and a name that was added would be like no other.
    next h =>
    obtain ⟨e, he, hlike⟩ := hany.1 h
    rcases names_setEntry name value ps.entries with hnames | ⟨-, hnew⟩
    · exact hnames
    · exact absurd hlike (by rw [hnew e he]; decide)
  · -- No name is like the new one, which is added at the end.
    next h =>
    have hnew : ∀ e ∈ ps.entries, Text.alike e.1 name = false := fun e he =>
      Bool.eq_false_iff.2 fun hlike => h (hany.2 ⟨e, he, hlike⟩)
    change (setEntry name value ps.entries).map Prod.fst = _
    rw [setEntry_of_new value hnew, List.map_append]
    rfl

/-! ## Runs -/

theorem ofList_append_singleton (sets : List (String × ParameterValue α))
    (e : String × ParameterValue α) : ofList (sets ++ [e]) = (ofList sets).set e.1 e.2 :=
  List.foldl_concat ..

/-- The last value that is set under a name. -/
def lastValue? (sets : List (String × ParameterValue α)) (query : String) :
    Option (ParameterValue α) :=
  (sets.filter fun e => Text.alike e.1 query).getLast?.map Prod.snd

theorem lastValue?_append_singleton (sets : List (String × ParameterValue α))
    (e : String × ParameterValue α) (query : String) :
    lastValue? (sets ++ [e]) query =
      if Text.alike e.1 query then some e.2 else lastValue? sets query := by
  unfold lastValue?
  rw [List.filter_append]
  by_cases h : Text.alike e.1 query = true <;> simp [h]

theorem get?_ofList (sets : List (String × ParameterValue α)) (query : String) :
    (ofList sets).get? query = lastValue? sets query := by
  induction sets using List.reverseRecOn with
  | nil => rfl
  | append_singleton sets e ih =>
    rw [ofList_append_singleton, get?_set, ih, lastValue?_append_singleton]

/-- One more name is a repetition or comes last. -/
theorem eraseDupsBy_append_singleton {β : Type} (r : β → β → Bool) (as : List β) (a : β) :
    (as ++ [a]).eraseDupsBy r =
      if (as.eraseDupsBy r).any (r a) then as.eraseDupsBy r else as.eraseDupsBy r ++ [a] := by
  -- The loop carries what it has kept so far, the latest first.
  have hloop : ∀ kept, List.eraseDupsBy.loop r (as ++ [a]) kept =
      if (List.eraseDupsBy.loop r as kept).any (r a) then List.eraseDupsBy.loop r as kept
      else List.eraseDupsBy.loop r as kept ++ [a] := by
    induction as with
    | nil =>
      intro kept
      rw [List.nil_append, List.eraseDupsBy.loop, List.eraseDupsBy.loop, List.any_reverse]
      cases kept.any (r a) <;> simp [List.eraseDupsBy.loop]
    | cons b as ih =>
      intro kept
      rw [List.cons_append, List.eraseDupsBy.loop, List.eraseDupsBy.loop]
      cases kept.any (r b) <;> exact ih _
  exact hloop []

theorem names_ofList (sets : List (String × ParameterValue α)) :
    (ofList sets).entries.map Prod.fst = (sets.map Prod.fst).eraseDupsBy Text.alike := by
  induction sets using List.reverseRecOn with
  | nil => rfl
  | append_singleton sets e ih =>
    -- A setting looks for its name among those kept so far, and so does the erasure.
    rw [ofList_append_singleton, names_set, ih, List.map_append, List.map_singleton,
      eraseDupsBy_append_singleton]

/-- What is set is found, and nothing else is. -/
theorem exists_alike_ofList (sets : List (String × ParameterValue α)) (query : String) :
    (∃ e ∈ (ofList sets).entries, Text.alike e.1 query = true) ↔
      ∃ e ∈ sets, Text.alike e.1 query = true := by
  have hentries : ((ofList sets).get? query).isSome = true ↔
      ∃ e ∈ (ofList sets).entries, Text.alike e.1 query = true := by
    simp only [get?, Option.isSome_map, List.find?_isSome]
  have hsets : (lastValue? sets query).isSome = true ↔
      ∃ e ∈ sets, Text.alike e.1 query = true := by
    rw [lastValue?, Option.isSome_map, List.getLast?_isSome, ne_eq, List.filter_eq_nil_iff]
    push Not
    rfl
  rw [← hentries, get?_ofList, hsets]

/-- Names that are distinct are different also when their capitals are made small. -/
theorem Distinct.nodup_lower {es : List (String × ParameterValue α)} (h : Distinct es) :
    (es.map fun e => Text.lower e.1).Nodup := by
  rw [List.Nodup, List.pairwise_map]
  exact h.imp Text.alike_eq_false_iff.1

/-- There are as many entries as there are names without regard to case. -/
theorem size_ofList (sets : List (String × ParameterValue α)) :
    (ofList sets).size = (sets.map fun e => Text.lower e.1).toFinset.card := by
  -- The entries have the same small names as the settings, and each of them once.
  have hsame : ((ofList sets).entries.map fun e => Text.lower e.1).toFinset =
      (sets.map fun e => Text.lower e.1).toFinset := by
    ext small
    simp only [List.mem_toFinset, List.mem_map]
    constructor
    · rintro ⟨e, he, rfl⟩
      obtain ⟨e', he', hlike⟩ :=
        (exists_alike_ofList sets e.1).1 ⟨e, he, beq_self_eq_true _⟩
      exact ⟨e', he', (Text.alike_iff _ _).1 hlike⟩
    · rintro ⟨e, he, rfl⟩
      obtain ⟨e', he', hlike⟩ :=
        (exists_alike_ofList sets e.1).2 ⟨e, he, beq_self_eq_true _⟩
      exact ⟨e', he', (Text.alike_iff _ _).1 hlike⟩
  rw [← hsame, List.toFinset_card_of_nodup (distinct_ofList sets).nodup_lower, List.length_map,
    size]

/-- What a run of settings leaves behind. -/
structure Records (ps : Parameters α) (sets : List (String × ParameterValue α)) : Prop where
  /-- No two names are alike. -/
  distinct : Distinct ps.entries
  /-- The names are those that are like no name before them, in their order. -/
  names_eq : ps.entries.map Prod.fst = (sets.map Prod.fst).eraseDupsBy Text.alike
  /-- The value under a name is the last one that was set. -/
  get?_eq (query : String) : ps.get? query = lastValue? sets query
  /-- The number of entries is the number of names without regard to case. -/
  size_eq : ps.size = (sets.map fun e => Text.lower e.1).toFinset.card

theorem records_ofList (sets : List (String × ParameterValue α)) : (ofList sets).Records sets where
  distinct := distinct_ofList sets
  names_eq := names_ofList sets
  get?_eq := get?_ofList sets
  size_eq := size_ofList sets

/-! ## What determines a list -/

/-- Distinct entries are told by their names and by what is found under these. -/
theorem Distinct.entries_eq {es : List (String × ParameterValue α)} (h : Distinct es) :
    es.map (fun e => (e.1, some e.2)) =
      (es.map Prod.fst).map fun name => (name, (⟨es⟩ : Parameters α).get? name) := by
  rw [List.map_map]
  refine List.map_congr_left fun e he => ?_
  rw [Function.comp_apply, get?, h.find?_of_mem he, Option.map_some]

/-- What a run of settings leaves behind is one list. -/
theorem Records.unique {ps qs : Parameters α} {sets : List (String × ParameterValue α)}
    (hps : ps.Records sets) (hqs : qs.Records sets) : ps = qs := by
  obtain ⟨es⟩ := ps
  obtain ⟨fs⟩ := qs
  have hget : (⟨es⟩ : Parameters α).get? = (⟨fs⟩ : Parameters α).get? :=
    funext fun query => (hps.get?_eq query).trans (hqs.get?_eq query).symm
  -- Values are wrapped because not every name has one.
  have hinj : Function.Injective fun e : String × ParameterValue α => (e.1, some e.2) := by
    rintro ⟨name, value⟩ ⟨name', value'⟩ h
    simpa using h
  refine congrArg Parameters.mk (List.map_injective_iff.2 hinj ?_)
  rw [hps.distinct.entries_eq, hqs.distinct.entries_eq, hps.names_eq, hqs.names_eq, hget]

theorem lastValue?_eq_of_overwritten {before after : List (String × ParameterValue α)}
    {name : String} (value value' : ParameterValue α)
    (h : ∃ e ∈ after, Text.alike e.1 name = true) (query : String) :
    lastValue? (before ++ (name, value) :: after) query =
      lastValue? (before ++ (name, value') :: after) query := by
  unfold lastValue?
  rw [List.filter_append, List.filter_append, List.filter_cons, List.filter_cons]
  split
  · next hquery =>
    -- A name like the query is set again, and that setting is found from the end.
    obtain ⟨e, he, hlike⟩ := h
    have hmem : e ∈ after.filter fun e => Text.alike e.1 query :=
      List.mem_filter.2 ⟨he, (Text.alike_congr_left hlike query).trans hquery⟩
    obtain ⟨last, hlast⟩ := Option.isSome_iff_exists.1
      (List.getLast?_isSome.2 (List.ne_nil_of_mem hmem))
    rw [List.getLast?_append, List.getLast?_append, List.getLast?_cons, List.getLast?_cons, hlast]
    rfl
  · rfl

/-- A value is lost when its name is set again. -/
theorem ofList_of_overwritten {before after : List (String × ParameterValue α)} {name : String}
    (value value' : ParameterValue α) (h : ∃ e ∈ after, Text.alike e.1 name = true) :
    ofList (before ++ (name, value) :: after) = ofList (before ++ (name, value') :: after) := by
  -- The other run is recorded too: it has the same names and the same last values.
  refine (records_ofList _).unique ?_
  obtain ⟨hdistinct, hnames, hget, hsize⟩ :=
    records_ofList (before ++ (name, value') :: after)
  refine ⟨hdistinct, ?_, fun query => ?_, ?_⟩
  · simpa using hnames
  · rw [hget, lastValue?_eq_of_overwritten value value' h]
  · simpa using hsize

end Parameters

/-! ## Equality -/

/-- Values of one kind with the same representation. -/
inductive ParameterValue.Identical {α : Type} [Scalar α] :
    ParameterValue α → ParameterValue α → Prop
  | number {x y : α} (h : Scalar.same x y = true) : Identical (.number x) (.number y)
  | text (s : String) : Identical (.text s) (.text s)

theorem ParameterValue.same_iff_identical {α : Type} [Scalar α] {v w : ParameterValue α} :
    v.same w = true ↔ v.Identical w := by
  constructor
  · intro h
    cases v with
    | number x =>
      cases w with
      | number y => exact .number h
      | text s => cases h
    | text s =>
      cases w with
      | number y => cases h
      | text s' => exact (beq_iff_eq.1 h) ▸ .text s
  · rintro (h | s)
    · exact h
    · exact beq_self_eq_true s

namespace Parameters

/-- Lists are compared entry by entry, the spellings included. -/
theorem same_iff_forall₂ {α : Type} [Scalar α] {ps qs : Parameters α} : ps.same qs = true ↔
    List.Forall₂ (fun e f => e.1 = f.1 ∧ e.2.Identical f.2) ps.entries qs.entries := by
  simp only [same, size, Bool.and_eq_true, beq_iff_eq, List.all_eq_true, Prod.forall,
    ParameterValue.same_iff_identical, List.forall₂_iff_zip]

end Parameters

end CoordTransform
