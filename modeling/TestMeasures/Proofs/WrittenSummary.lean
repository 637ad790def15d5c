import TestMeasures.Command.Run
import TestMeasures.Proofs.Aggregation

/-!
# Writing the summary of a run

A run writes its summary piece by piece to an outlet that may fill up at any byte. `Outlet.write_all_eq` says
that this comes to writing the pieces as one text, and `Command.summary_fills_room` what a whole run writes
and exits with: only its setup and the room for its summary decide, and no language that fails does.
-/

namespace TestMeasures

/-- Texts are encoded one after the other. -/
theorem Text.Utf8.encode_append (text other : String) : encode (text ++ other) = encode text ++ encode other := by
  simp [encode]

/-- Joined texts are encoded one after the other. -/
theorem Text.Utf8.encode_intercalate (texts : List String) :
    encode ("".intercalate texts) = (texts.map encode).flatten := by
  induction texts with
  | nil => rfl
  | cons text rest ih =>
      cases rest with
      | nil => simp
      | cons other rest =>
          rw [String.intercalate_cons_cons, String.append_empty, encode_append, ih]
          rfl

namespace Command

namespace Outlet

variable {outlet : Outlet} {bytes : List UInt8}

/-- Bytes that fit leave the room that is taken up by what is written behind them. -/
theorem write_append (h : (outlet.write bytes).2 = true) (others : List UInt8) :
    outlet.write (bytes ++ others) =
      (bytes ++ ((outlet.behind bytes).write others).1, ((outlet.behind bytes).write others).2) := by
  obtain ⟨room, reason⟩ := outlet
  cases room with
  | none => rfl
  | some room =>
      have hfits : bytes.length ≤ room := by simpa [write] using h
      have htotal : (bytes ++ others).length ≤ room ↔ others.length ≤ room - bytes.length := by
        rw [List.length_append]
        omega
      simp only [write, behind, Option.map_some, htotal, List.take_append,
        List.take_of_length_le hfits]

/-- Behind bytes that do not fit, nothing is written. -/
theorem write_append_stopped (h : (outlet.write bytes).2 = false) (others : List UInt8) :
    outlet.write (bytes ++ others) = outlet.write bytes := by
  obtain ⟨room, reason⟩ := outlet
  cases room with
  | none => cases h
  | some room =>
      have hlong : room < bytes.length := by simpa [write] using h
      have htotal : ¬ (bytes ++ others).length ≤ room := by
        rw [List.length_append]
        omega
      simp only [write, htotal, Nat.not_le.mpr hlong, List.take_append_of_le_length hlong.le]

/-- What fits is written as it is. -/
theorem written_of_fits (h : (outlet.write bytes).2 = true) : (outlet.write bytes).1 = bytes := by
  obtain ⟨room, reason⟩ := outlet
  cases room with
  | none => rfl
  | some room => exact List.take_of_length_le (by simpa [write] using h)

/-- Writing pieces one after the other is writing them as one, wherever the room ends. -/
theorem write_all_eq (outlet : Outlet) (pieces : List (List UInt8)) :
    outlet.writeAll pieces = outlet.write pieces.flatten := by
  induction pieces generalizing outlet with
  | nil =>
      obtain ⟨room, reason⟩ := outlet
      cases room <;> simp [writeAll, write]
  | cons piece rest ih =>
      rw [List.flatten_cons, writeAll]
      cases hfits : (outlet.write piece).2 with
      | true =>
          have hpiece : outlet.write piece = (piece, true) :=
            Prod.ext (written_of_fits hfits) hfits
          simp only [hpiece, ih, write_append hfits]
      | false =>
          have hpiece : outlet.write piece = ((outlet.write piece).1, false) := Prod.ext rfl hfits
          rw [hpiece, write_append_stopped hfits]
          exact hpiece.symm

end Outlet

variable {tree : FileTree} {options : Options} {setup : Setup} {events : List Event}

/-- The configuration and the method map of a run can be loaded. -/
def CanStart (tree : FileTree) (options : Options) : Prop :=
  (∃ config, (ImportConfig.load tree options.config).config = .ok config) ∧
    ∃ map, loadMap tree options.methodMap = .ok map

/-- A setup is loaded exactly when it holds the configuration and the method map that are. -/
theorem setup_ok_iff :
    (∃ events, Setup.load tree options = (.ok setup, events)) ↔
      (ImportConfig.load tree options.config).config = .ok setup.config ∧
        loadMap tree options.methodMap = .ok setup.map := by
  cases hconfig : (ImportConfig.load tree options.config).config with
  | error error => simp [Setup.load, hconfig]
  | ok config =>
      cases hmap : loadMap tree options.methodMap with
      | error error => simp [Setup.load, hconfig, hmap]
      | ok map =>
          obtain ⟨config', map'⟩ := setup
          simp [Setup.load, hconfig, hmap]

/-- A run is set up exactly when what it needs can be loaded. -/
theorem can_start_iff :
    CanStart tree options ↔ ∃ setup events, Setup.load tree options = (.ok setup, events) := by
  simp only [setup_ok_iff]
  constructor
  · rintro ⟨⟨config, hconfig⟩, map, hmap⟩
    exact ⟨⟨config, map⟩, hconfig, hmap⟩
  · rintro ⟨setup, hconfig, hmap⟩
    exact ⟨⟨setup.config, hconfig⟩, setup.map, hmap⟩

/-- A run that cannot start has a setup that fails to load. -/
theorem setup_error_of_not_start (h : ¬ CanStart tree options) :
    ∃ error events, Setup.load tree options = (.error error, events) := by
  cases hload : Setup.load tree options with
  | mk result events =>
      cases result with
      | error error => exact ⟨error, events, rfl⟩
      | ok setup => exact absurd (can_start_iff.mpr ⟨setup, events, hload⟩) h

/-- A run that is not set up ends with that failure. -/
theorem run_of_setup_error {error : SetupError} (h : Setup.load tree options = (.error error, events))
    (colored : Bool) (outlet : Outlet) :
    run tree options colored outlet = (Failure.setup error).ended colored [] events := by
  simp only [run, prepare, h]

/-- The summary of a run that is set up, as text. -/
def Setup.report (setup : Setup) (tree : FileTree) (options : Options) (colored : Bool) : String :=
  options.format.render colored ((setup.import tree options.project).summary options.project)

/-- A run that is set up writes its summary, and fails if that does not fit. -/
theorem run_of_setup (h : Setup.load tree options = (.ok setup, events)) (colored : Bool)
    (outlet : Outlet) :
    let result := outlet.write (Text.Utf8.encode (setup.report tree options colored))
    (run tree options colored outlet).written = result.1 ∧
      (run tree options colored outlet).exitCode = if result.2 then 0 else 110 := by
  intro result
  have hresult : outlet.writeAll ((options.format.pieces colored
      ((setup.import tree options.project).summary options.project)).map Text.Utf8.encode) = result := by
    rw [Outlet.write_all_eq, ← Text.Utf8.encode_intercalate]
    rfl
  simp only [run, prepare, h, hresult]
  cases hfits : result with
  | mk written fits => cases fits <;> simp [Failure.ended, Failure.exitCode]

/-- Loading a configuration announces no report, and neither does telling a failure. -/
theorem setup_events_silent {error : SetupError} (h : Setup.load tree options = (.error error, events))
    (colored : Bool) (written : List UInt8) :
    ∀ event ∈ ((Failure.setup error).ended colored written events).events, event.announces = false := by
  have hsilent : ∀ event : Event, event.level ≠ .info → event.announces = false := by
    intro event hlevel
    simp [Event.announces, hlevel]
  have hloaded : events = (ImportConfig.load tree options.config).events options.config := by
    unfold Setup.load at h
    simp only at h
    split at h
    · exact (Prod.mk.inj h).2.symm
    · split at h <;> exact (Prod.mk.inj h).2.symm
  intro event hevent
  refine hsilent event ?_
  rcases List.mem_append.mp hevent with hevent | hevent
  · rw [hloaded, ImportConfig.Loaded.events] at hevent
    split at hevent
    · cases hevent
    · rw [List.mem_singleton.mp hevent]
      simp [ImportConfig.unknownKeysEvent]
  · unfold Failure.events at hevent
    split at hevent
    · cases hevent
    · rcases List.mem_cons.mp hevent with rfl | hevent
      · simp
      · obtain ⟨message, -, rfl⟩ := List.mem_map.mp hevent
        simp [Failure.causeEvent]

/-- A run exits with 96 exactly when its configuration or its method map cannot be loaded; then it writes
nothing, announces no report, and comes to the same with any other files around. Otherwise it writes its
summary as far as the room goes, in either format, and exits with 110 if that is not all of it and with 0 if
it is. So whatever other files hold, a run that can start exits with 0 where there is room enough. -/
theorem summary_fills_room (tree : FileTree) (options : Options) (colored : Bool) (room : Nat)
    (reason : String) :
    let ended := run tree options colored ⟨some room, reason⟩
    let whole := run tree options colored .unlimited
    (ended.exitCode = 96 ↔ ¬ CanStart tree options) ∧
    (¬ CanStart tree options →
      ended.written = [] ∧ (∀ event ∈ ended.events, event.announces = false) ∧
        ∀ other, Setup.load other options = Setup.load tree options →
          run other options colored ⟨some room, reason⟩ = ended) ∧
    (CanStart tree options →
      (∃ setup events, Setup.load tree options = (.ok setup, events) ∧
        whole.written = Text.Utf8.encode (setup.report tree options colored)) ∧
      whole.exitCode = 0 ∧
      ended.written = whole.written.take room ∧
      ended.exitCode = (if room < whole.written.length then 110 else 0) ∧
      ∀ other, (ImportConfig.load other options.config).config =
            (ImportConfig.load tree options.config).config →
          loadMap other options.methodMap = loadMap tree options.methodMap →
        ∀ enough, (run other options colored .unlimited).written.length ≤ enough →
          (run other options colored ⟨some enough, reason⟩).exitCode = 0) := by
  intro ended whole
  by_cases hstart : CanStart tree options
  · obtain ⟨setup, events, hload⟩ := can_start_iff.mp hstart
    have hwhole := run_of_setup hload colored .unlimited
    have hended := run_of_setup hload colored ⟨some room, reason⟩
    have hwritten : whole.written = Text.Utf8.encode (setup.report tree options colored) := hwhole.1
    have hexit : ended.exitCode = if room < whole.written.length then 110 else 0 := by
      rw [hended.2, hwritten]
      simp only [Outlet.write, decide_eq_true_eq]
      split <;> split <;> first | rfl | omega
    refine ⟨iff_of_false ?_ (not_not.mpr hstart), fun h => absurd hstart h, fun _ =>
      ⟨⟨setup, events, hload, hwritten⟩, hwhole.2, ?_, hexit, ?_⟩⟩
    · rw [hexit]
      split <;> decide
    · rw [hwritten]
      exact hended.1
    · intro other hconfig hmap enough henough
      obtain ⟨setup', events', hload'⟩ : ∃ setup' events', Setup.load other options = (.ok setup', events') := by
        rw [← can_start_iff, CanStart, hconfig, hmap]
        exact hstart
      have hall := run_of_setup hload' colored .unlimited
      have hdone := run_of_setup hload' colored ⟨some enough, reason⟩
      rw [hall.1] at henough
      rw [hdone.2]
      exact if_pos (decide_eq_true henough)
  · obtain ⟨error, events, hload⟩ := setup_error_of_not_start hstart
    have hended : ended = (Failure.setup error).ended colored [] events := run_of_setup_error hload _ _
    refine ⟨iff_of_true (by rw [hended]; rfl) hstart, fun _ => ⟨by rw [hended]; rfl, ?_, ?_⟩,
      fun h => absurd h hstart⟩
    · rw [hended]
      exact setup_events_silent hload colored []
    · intro other hother
      rw [hended, run_of_setup_error (hother.trans hload)]

end Command

end TestMeasures
