import Mathlib
import CoordTransform.CommandLine.Outcome
import CoordTransform.Proofs.Coordinate.Filtering
import CoordTransform.Proofs.Coordinate.Forms
import CoordTransform.Proofs.Decimal.Layout

/-!
# Printing All Images or None

The commands `transform` and `inverse` run through stages: settings, text, element, inverse,
coordinates, images. The program of `Application.print` takes them one after the other, filters the
coordinates where they stand and prints line by line; what it has printed stays printed when
something fails later. It prints only behind the last stage that can fail, so that the reports of
the library, which hold all lines or none, say what it prints (`Application.prints_result`).

Which failure ends a run is described by `Application.Fails`, one case for each stage. The main
result is that a run prints one line for each coordinate, or fails in one of the stages and prints
nothing.
-/

namespace CoordTransform

/-! ## Lines -/

/-- The text of a number has no end of a line. -/
theorem Decimal.newline_not_mem_plain (x : Float) : '\n' ∉ (plain x).toList := by
  unfold plain layoutWith
  cases Parts.ofFloat x with
  | notANumber => decide
  | infinite negative => cases negative <;> decide
  | finite negative b =>
    obtain ⟨d, hmantissa, -⟩ := Fraction.isMantissa_plainChars b.shortest
    have hchars : '\n' ∉ b.shortest.plainChars := fun hmem =>
      absurd (hmantissa.chars '\n' hmem) (by decide)
    cases negative <;> simp [signed, hchars]

/-- Nor has the text of a coordinate. -/
theorem Coordinate.newline_not_mem_text (c : Coordinate Float) : '\n' ∉ c.text.toList := by
  have hnumber : ∀ x : Float, '\n' ∉ (Numeral.text x).toList := Decimal.newline_not_mem_plain
  have hcomma : ",".toList = [','] := by decide
  unfold text
  split <;> simp [hnumber, hcomma]

namespace CommandLine

theorem toList_unlines_cons (line : String) (lines : List String) :
    (unlines (line :: lines)).toList = line.toList ++ '\n' :: (unlines lines).toList := by
  have hend : "\n".toList = ['\n'] := by decide
  rw [unlines, List.map_cons, String.join_cons, String.toList_append, String.toList_append, hend,
    List.append_assoc, List.singleton_append, unlines]

/-- The lines of an output are those that were put into it, and behind each of them a line ends. -/
theorem splitAll_unlines {lines : List String} (h : ∀ line ∈ lines, '\n' ∉ line.toList) :
    Text.splitAll '\n' (unlines lines).toList = lines.map String.toList ++ [[]] := by
  induction lines with
  | nil => rfl
  | cons line lines ih =>
    rw [List.forall_mem_cons] at h
    rw [toList_unlines_cons, Text.splitAll_append _ _ h.1, ih h.2]
    rfl
-- The induction is on the lines; each is split off at the end that is put behind it.

/-! ## Programs that print -/

/-- Programs that print lines and may fail. What has been printed stays printed when they fail. -/
abbrev Printing : Type → Type := ExceptT Failure (StateM (List String))

/-- Goes on with a value, or fails. -/
def attempt {β : Type} (result : Except Failure β) : Printing β := ExceptT.mk (pure result)

/-- Prints a line. -/
def printLine (line : String) : Printing Unit := modify (· ++ [line])

/-- An output behind which the lines of a result have been printed, or the failure and the output as
it was. -/
def printed (output : List String) :
    Except Failure (List String) → Except Failure Unit × List String
  | .ok lines => (.ok (), output ++ lines)
  | .error e => (.error e, output)

/-- Whether a program prints all the lines of a result, or fails as the result does and prints
nothing. -/
def Prints (program : Printing Unit) (result : Except Failure (List String)) : Prop :=
  ∀ output, program output = printed output result

theorem Prints.attempt_bind {β : Type} {program : β → Printing Unit}
    {result : β → Except Failure (List String)} (h : ∀ b, Prints (program b) (result b))
    (first : Except Failure β) : Prints (attempt first >>= program) (first >>= result) := by
  intro output
  cases first with
  | ok b => exact h b output
  | error e => rfl

theorem prints_lines (lines : List String) : Prints (forM lines printLine) (.ok lines) := by
  intro output
  induction lines generalizing output with
  | nil =>
    rw [printed, List.append_nil]
    rfl
  | cons line lines ih =>
    have hline : printLine line output = (.ok (), output ++ [line]) := rfl
    rw [List.forM_cons, stateBind_of_ok hline, ih, printed, printed, List.append_assoc]
    rfl
-- What has been printed is generalized, since the first line comes to stand behind it.

/-! ## Applications -/

/-- What the two commands are asked for: the images of coordinates under a transform or under its
inverse. -/
structure Application where
  settings : Option String
  inverted : Bool
  text : String
  coordinates : List String
  deriving DecidableEq, Repr

namespace Application

/-- The command with its arguments. -/
def invocation (a : Application) : Invocation where
  config := a.settings
  task := if a.inverted then .inverse a.text a.coordinates else .transform a.text a.coordinates

/-- The transform to apply. -/
def select (a : Application) (t : Transform Float) : Except Failure (Transform Float) :=
  if a.inverted then t.inverse.mapError .transform else .ok t

/-- Filters points where they stand and prints them. -/
def printImages (t : Transform Float) (points : List (Coordinate Float)) : Printing Unit := do
  let (filtered, points) := Coordinate.filterAllInPlace t points
  attempt (filtered.mapError .filter)
  forM (points.map Coordinate.text) printLine

/-- Carries out the command stage by stage. -/
def print (files : Files) (a : Application) : Printing Unit := do
  let config ← attempt (readConfig files a.settings)
  let text ← attempt (readText files a.text)
  let parsed ← attempt (parseTransform config text)
  let t ← attempt (a.select parsed)
  let points ← attempt ((Coordinate.parseAll a.coordinates).mapError .input)
  printImages t points

/-- The lines of the command, or its failure. -/
def result (files : Files) (a : Application) : Except Failure (List String) := do
  let config ← readConfig files a.settings
  let text ← readText files a.text
  let parsed ← parseTransform config text
  let t ← a.select parsed
  images t a.coordinates

theorem report_invocation (files : Files) (a : Application) :
    a.invocation.report files = .ofExcept (a.result files) := by
  obtain ⟨settings, inverted, text, coordinates⟩ := a
  unfold Invocation.report result invocation
  dsimp only
  cases readConfig files settings with
  | error e => rfl
  | ok config =>
    cases inverted with
    | true => rfl
    | false => rfl

/-- What has been filtered when a later coordinate has no image is not printed. -/
theorem prints_printImages (t : Transform Float) (points : List (Coordinate Float)) :
    Prints (printImages t points)
      (match Coordinate.filterAll t points with
      | (_, some e) => throw (.filter e)
      | (ds, none) => return ds.map Coordinate.text) := by
  unfold printImages
  rw [Coordinate.filterAllInPlace_eq]
  obtain ⟨ds, failure⟩ := Coordinate.filterAll t points
  cases failure with
  | some e => exact fun _ => rfl
  | none => exact prints_lines _

/-- The command prints its lines, or fails and prints nothing. -/
theorem prints_result (files : Files) (a : Application) : Prints (a.print files) (a.result files) :=
  -- Nothing is printed in the five stages before the images.
  .attempt_bind (fun _ => .attempt_bind (fun _ => .attempt_bind (fun _ =>
    .attempt_bind (fun t => .attempt_bind (prints_printImages t) _) _) _) _) _

/-! ## Success and failure -/

/-- Whether the first stages end with the transform to apply. -/
def Finds (files : Files) (a : Application) (t : Transform Float) : Prop :=
  ∃ config text parsed, readConfig files a.settings = .ok config ∧
    readText files a.text = .ok text ∧ parseTransform config text = .ok parsed ∧
    a.select parsed = .ok t

/-- The ways in which a command fails, in the order of its stages. -/
inductive Fails (files : Files) (a : Application) : Failure → Prop where
  | settings {e : Failure} : readConfig files a.settings = .error e → Fails files a e
  | text {config : Config} {e : Failure} : readConfig files a.settings = .ok config →
      readText files a.text = .error e → Fails files a e
  | element {config : Config} {text : String} {e : Failure} :
      readConfig files a.settings = .ok config → readText files a.text = .ok text →
      parseTransform config text = .error e → Fails files a e
  | inversion {config : Config} {text : String} {parsed : Transform Float} {e : Failure} :
      readConfig files a.settings = .ok config → readText files a.text = .ok text →
      parseTransform config text = .ok parsed → a.select parsed = .error e → Fails files a e
  /-- The first coordinate that cannot be read decides. -/
  | coordinate {t : Transform Float} {before after : List String} {s : String}
      {points : List (Coordinate Float)} {e : InputError} : a.Finds files t →
      a.coordinates = before ++ s :: after → Coordinate.parseAll before = .ok points →
      Coordinate.parse s (Coordinate.previous none points before.length) = .error e →
      Fails files a (.input e)
  /-- The first coordinate without an image decides. -/
  | image {t : Transform Float} {before images after : List (Coordinate Float)}
      {c : Coordinate Float} {e : FilterError Float} : a.Finds files t →
      Coordinate.parseAll a.coordinates = .ok (before ++ c :: after) →
      List.Forall₂ (fun c d => Coordinate.filter t c = .ok d) before images →
      Coordinate.filter t c = .error e → Fails files a (.filter e)

variable {files : Files} {a : Application} {t : Transform Float} {texts lines : List String}
  {e : Failure}

theorem images_eq_ok (h : images t texts = .ok lines) : ∃ cs ds,
    Coordinate.parseAll texts = .ok cs ∧
      List.Forall₂ (fun c d => Coordinate.filter t c = .ok d) cs ds ∧
      lines = ds.map Coordinate.text := by
  obtain ⟨cs, hcs, hfilter⟩ := bind_eq_ok.1 h
  -- All coordinates have been filtered, since the lines are only made when there is no error.
  rcases hall : Coordinate.filterAll t cs with ⟨ds, failure⟩
  rw [hall] at hfilter
  cases failure with
  | some e => cases hfilter
  | none =>
    cases hfilter
    exact ⟨cs, ds, mapError_eq_ok.1 hcs, Coordinate.filterAll_eq_none_iff.1 hall, rfl⟩

/-- Once the transform is found, the coordinates decide. -/
theorem fails_of_images (ht : a.Finds files t) (h : images t a.coordinates = .error e) :
    a.Fails files e := by
  obtain hparse | ⟨cs, hcs, hfilter⟩ := bind_eq_error.1 h
  · -- A coordinate cannot be read, or all can and one of them has no image.
    obtain ⟨e', hall, rfl⟩ := mapError_eq_error.1 hparse
    obtain ⟨before, s, after, points, hsplit, hbefore, hs⟩ :=
      Coordinate.parseAllFrom_eq_error_iff.1 hall
    exact .coordinate ht hsplit hbefore hs
  · rcases hall : Coordinate.filterAll t cs with ⟨ds, failure⟩
    rw [hall] at hfilter
    cases failure with
    | none => cases hfilter
    | some e' =>
      cases hfilter
      obtain ⟨before, images, c, after, rfl, -, hbefore, hc⟩ :=
        Coordinate.filterAll_eq_some_iff.1 hall
      exact .image ht (mapError_eq_ok.1 hcs) hbefore hc

theorem result_eq_ok (h : a.result files = .ok lines) :
    ∃ t, a.Finds files t ∧ images t a.coordinates = .ok lines := by
  obtain ⟨config, hconfig, h⟩ := bind_eq_ok.1 h
  obtain ⟨text, htext, h⟩ := bind_eq_ok.1 h
  obtain ⟨parsed, hparsed, h⟩ := bind_eq_ok.1 h
  obtain ⟨t, ht, h⟩ := bind_eq_ok.1 h
  exact ⟨t, ⟨config, text, parsed, hconfig, htext, hparsed, ht⟩, h⟩

theorem fails_of_result (h : a.result files = .error e) : a.Fails files e := by
  obtain h | ⟨config, hconfig, h⟩ := bind_eq_error.1 h
  · exact .settings h
  obtain h | ⟨text, htext, h⟩ := bind_eq_error.1 h
  · exact .text hconfig h
  obtain h | ⟨parsed, hparsed, h⟩ := bind_eq_error.1 h
  · exact .element hconfig htext h
  obtain h | ⟨t, ht, h⟩ := bind_eq_error.1 h
  · exact .inversion hconfig htext hparsed h
  · exact fails_of_images ⟨config, text, parsed, hconfig, htext, hparsed, ht⟩ h

/-! ## Arguments -/

/-- The command of an application. -/
def command (a : Application) : Command := if a.inverted then .inverse else .transform

/-- Arguments that ask for an application. Behind the two hyphens nothing is taken for an option,
whatever the text and the coordinates are. -/
def arguments (a : Application) : List String :=
  (a.settings.map ("--config=" ++ ·)).toList ++ a.command.word :: "--" :: a.text :: a.coordinates

theorem form_config (path : String) :
    Form.of ("--config=" ++ path) = .long "config" (some path) := by
  have hname : "--config=".toList = ['-', '-', 'c', 'o', 'n', 'f', 'i', 'g', '='] := by decide
  have hsplit := Text.splitFirst?_append ['c', 'o', 'n', 'f', 'i', 'g'] path.toList
    (show '=' ∉ _ by decide)
  unfold Form.of
  rw [String.toList_append, hname]
  simp only [List.cons_append, List.nil_append] at hsplit ⊢
  rw [hsplit]
  dsimp only
  rw [String.ofList_toList]

/-- Behind the last positional argument all others are taken as they are. -/
theorem placeAll_of_repeatsAt {s : Scope} {p : Progress} (hsettled : p.settled = true)
    (hrepeats : s.repeatsAt p.values.length = true) (rest : List String) :
    s.placeAll p rest = .ok { p with values := p.values ++ rest } := by
  -- The arguments taken so far are generalized, with the number of them at which repeats begin.
  induction rest generalizing p with
  | nil =>
    rw [List.append_nil, Scope.placeAll, Progress.settle, hsettled]
    rfl
  | cons x rest ih =>
    have hplace : s.place p x = .ok { p with values := p.values ++ [x] } := by
      rw [Scope.place, Progress.settle, hsettled, hrepeats]
      rfl
    have hnext : s.repeatsAt (p.values ++ [x]).length = true := by
      rw [List.length_append, List.length_singleton]
      unfold Scope.repeatsAt at hrepeats ⊢
      split at hrepeats
      · rw [decide_eq_true_iff] at hrepeats ⊢
        omega
      · -- Nothing repeats in a scope without a last argument for it.
        cases hrepeats
    rw [Scope.placeAll, hplace]
    refine (ih (p := { p with values := p.values ++ [x] }) hsettled hnext).trans ?_
    rw [List.append_assoc]
    rfl

/-- Behind the two hyphens the text and the coordinates are taken as they are. -/
theorem read_escaped (a : Application) (hcoordinates : a.coordinates ≠ []) :
    (Scope.ofCommand a.command).read {} ("--" :: a.text :: a.coordinates) =
      .ok { values := a.text :: a.coordinates } := by
  obtain ⟨settings, inverted, text, coordinates⟩ := a
  obtain ⟨x, xs, rfl⟩ := List.exists_cons_of_ne_nil hcoordinates
  cases inverted with
  | true => exact placeAll_of_repeatsAt (p := { values := [text, x] }) rfl rfl xs
  | false => exact placeAll_of_repeatsAt (p := { values := [text, x] }) rfl rfl xs

theorem task_command (a : Application) (hcoordinates : a.coordinates ≠ []) :
    a.command.task { values := a.text :: a.coordinates } = .ok a.invocation.task := by
  obtain ⟨settings, inverted, text, coordinates⟩ := a
  obtain ⟨x, xs, rfl⟩ := List.exists_cons_of_ne_nil hcoordinates
  cases inverted with
  | true => rfl
  | false => rfl

theorem readFrom_word (c : Command) {p : Progress} (hpending : p.pending = none)
    (rest : List String) : readFrom p (c.word :: rest) = readCommand p c rest := by
  have hform : Form.of c.word = .plain := by cases c <;> decide
  have hhelp : (c.word == helpWord) = false := by cases c <;> decide
  unfold readFrom
  rw [hform]
  dsimp only
  rw [hpending, hhelp, Command.ofWord?_word]
  rfl

/-- The command stands behind its settings. -/
theorem readFrom_command (a : Application) (hcoordinates : a.coordinates ≠ []) {p : Progress}
    (hpending : p.pending = none) (hsettled : p.settled = true) :
    readFrom p (a.command.word :: "--" :: a.text :: a.coordinates) =
      .ok ⟨p.value? .config, a.invocation.task⟩ := by
  rw [readFrom_word _ hpending, readCommand, read_escaped a hcoordinates]
  have hsettle : p.settle = .ok () := by
    rw [Progress.settle, hsettled]
    rfl
  exact bind_eq_ok.2 ⟨_, rfl, bind_eq_ok.2 ⟨_, task_command a hcoordinates,
    bind_eq_ok.2 ⟨(), hsettle, rfl⟩⟩⟩

/-- Every application can be asked for, with a path that is not empty and at least one
coordinate. -/
theorem read_arguments (a : Application) (hsettings : a.settings ≠ some "")
    (hcoordinates : a.coordinates ≠ []) : read a.arguments = .ok a.invocation := by
  unfold read arguments
  cases hpath : a.settings with
  | none =>
    refine (readFrom_command a hcoordinates rfl rfl).trans ?_
    rw [invocation, hpath]
    rfl
  | some path =>
    have hnonempty : path.isEmpty = false := by
      rw [Bool.eq_false_iff, ne_eq, String.isEmpty_iff]
      -- An empty path would be no value of the setting.
      rintro rfl
      exact hsettings hpath
    have hsettled : (({} : Progress).give .config path).settled = true := by
      simp [Progress.settled, Progress.give, Setting.accepts, hnonempty]
    have hlong : Scope.outer.readLong {} ("--config=" ++ path) "config" (some path) =
        .ok (({} : Progress).give .config path) := by
      have hflag : Scope.outer.flagOfName? "config" = none := by decide
      have hsetting : Scope.outer.settingOfName? "config" = some .config := by decide
      have hsettle : (({} : Progress).give .config path).settle = .ok () := by
        rw [Progress.settle, hsettled]
        rfl
      unfold Scope.readLong
      rw [hflag, hsetting]
      exact bind_eq_ok.2 ⟨(), rfl, bind_eq_ok.2 ⟨(), hsettle, rfl⟩⟩
    -- Behind the option with its value, the command is read as it is without settings.
    rw [Option.map_some, Option.toList_some, List.singleton_append, readFrom, form_config]
    refine bind_eq_ok.2 ⟨_, hlong, (readFrom_command a hcoordinates rfl hsettled).trans ?_⟩
    rw [invocation, hpath]
    rfl

/-! ## The main result -/

/-- A run that succeeds: it prints one line for each text of a coordinate, the text of the image of
what that one says with the coordinate before it as its reference. -/
structure Completes (files : Files) (a : Application) (outcome : Outcome) (t : Transform Float)
    (points images : List (Coordinate Float)) : Prop where
  finds : a.Finds files t
  count : a.coordinates.length = points.length
  reads : ∀ i s c, a.coordinates[i]? = some s → points[i]? = some c →
    Coordinate.parse s (Coordinate.previous none points i) = .ok c
  maps : List.Forall₂ (fun c d => Coordinate.filter t c = .ok d) points images
  prints : a.print files [] = (.ok (), images.map Coordinate.text)
  eq : outcome = { code := 0, output := unlines (images.map Coordinate.text) }
  lines : Text.splitAll '\n' outcome.output.toList = images.map (·.text.toList) ++ [[]]

/-- A run that fails in one of its stages: it prints nothing but the error. -/
structure Aborts (files : Files) (a : Application) (outcome : Outcome) (e : Failure) : Prop where
  fails : a.Fails files e
  prints : a.print files [] = (.error e, [])
  eq : outcome = { code := 1, output := "", error := some e.message }

/-- A command that applies a transform or its inverse prints one line for each coordinate, or it
fails in one of its stages and prints nothing. It does so with all arguments that ask for it, and
there are arguments for every text and all coordinates. -/
theorem run_all_or_nothing (files : Files) (a : Application) (arguments : List String) :
    (read arguments = .ok a.invocation →
      (∃ t points images, a.Completes files (run files arguments) t points images) ∨
        ∃ e, a.Aborts files (run files arguments) e) ∧
    (a.settings ≠ some "" → a.coordinates ≠ [] → read a.arguments = .ok a.invocation) := by
  refine ⟨fun h => ?_, a.read_arguments⟩
  -- What the program prints and what it ends with both come from the result of the library.
  have hrun : run files arguments = (Report.ofExcept (a.result files)).outcome := by
    rw [run, h, ← report_invocation]
  have hprints := a.prints_result files []
  rw [hrun]
  cases hresult : a.result files with
  | error e =>
    rw [hresult] at hprints
    exact .inr ⟨e, fails_of_result hresult, hprints, rfl⟩
  | ok lines =>
    rw [hresult] at hprints
    obtain ⟨t, ht, himages⟩ := result_eq_ok hresult
    obtain ⟨points, images, hpoints, hmaps, rfl⟩ := images_eq_ok himages
    -- One text for each coordinate, one image for each coordinate, and no line has an end inside.
    obtain ⟨hcount, hreads⟩ := Coordinate.parseAllFrom_eq_ok_iff.1 hpoints
    have hlines : ∀ line ∈ images.map Coordinate.text, '\n' ∉ line.toList :=
      List.forall_mem_map.2 fun c _ => c.newline_not_mem_text
    refine .inl ⟨t, points, images, ht, hcount, hreads, hmaps, hprints, rfl, ?_⟩
    refine (splitAll_unlines hlines).trans ?_
    rw [List.map_map]
    rfl

/-- A folder without files. -/
def noFiles : Files := fun _ => none

/-- A projective map that divides by the first component, which is zero for the second of three
coordinates. -/
def dividing : Application where
  settings := none
  inverted := false
  text := "PARAM_MT[\"Affine\", PARAMETER[\"elt_2_0\", 1], PARAMETER[\"elt_2_2\", 0]]"
  coordinates := ["2,4", "@-2,1", "4,4"]

/-- The inverse of a displacement along the first axis. -/
def returning : Application where
  settings := none
  inverted := true
  text := "PARAM_MT[\"Affine\", PARAMETER[\"elt_0_2\", 1]]"
  coordinates := ["3,2", "@1,1"]

/-- The first coordinate has an image, but the second has none, and nothing is printed. Both
coordinates of the other run have images. -/
theorem run_all_or_nothing_dividing :
    (∃ e, dividing.Aborts noFiles (run noFiles dividing.arguments) e) ∧
    ∃ t points images,
      returning.Completes noFiles (run noFiles returning.arguments) t points images := by
  -- Running the program tells which of the two outcomes it is, and the theorem what that says.
  have hdividing : (run noFiles dividing.arguments).code = 1 := by decide +kernel
  have hreturning : (run noFiles returning.arguments).code = 0 := by decide +kernel
  constructor
  · obtain ⟨hrun, hread⟩ := run_all_or_nothing noFiles dividing dividing.arguments
    refine (hrun (hread (by decide) (by decide))).resolve_left ?_
    rintro ⟨t, points, images, hcompletes⟩
    rw [hcompletes.eq] at hdividing
    cases hdividing
  · obtain ⟨hrun, hread⟩ := run_all_or_nothing noFiles returning returning.arguments
    refine (hrun (hread (by decide) (by decide))).resolve_right ?_
    rintro ⟨e, haborts⟩
    rw [haborts.eq] at hreturning
    cases hreturning

end Application

end CommandLine

end CoordTransform
