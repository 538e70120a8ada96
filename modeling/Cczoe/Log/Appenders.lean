import Mathlib.Data.List.Basic

/-!
# Loggers and appenders

The filtering and the choice of the formatter in `Log.h`, `Logger.cpp` and `LogAppender.cpp`. An
event enters through one of two macros, which compare its level with the logger's, passes
`Logger::log`, which compares it again and hands it to every appender or to the root logger, and
reaches `LogAppender::log`, which compares it with the appender's level and picks a formatter.

Formatters are values of an arbitrary type. What an appender has sent to its stream is the list of
the formatters it called, each with the event it formatted. Files are taken to be open.

`rule` is the documented behaviour: an appender gets an event that reaches the logger's level and
its own, once, with its own formatter or else with the logger's, and a logger without appenders
hands the event on to the root logger. The code follows it only in part. `macro_follows_iff` is the
exact condition: the format macro has its comparison the wrong way round, an appender whose
`m_hasFormatter` is not set does not look at its level, takes the logger's formatter even where its
constructor was given one, and writes nothing at all when it writes to a file.
-/

set_option autoImplicit false
set_option relaxedAutoImplicit false

namespace Cczoe.Log

/-- `LogLevel::Level`. -/
inductive Level
  | unknown
  | debug
  | info
  | warn
  | error
  | fatal
  deriving DecidableEq, Repr

/-- The value of the enumerator. -/
def Level.toNat : Level → ℕ
  | .unknown => 0
  | .debug => 1
  | .info => 2
  | .warn => 3
  | .error => 4
  | .fatal => 5

instance : LE Level := ⟨fun first second ↦ first.toNat ≤ second.toNat⟩

instance (first second : Level) : Decidable (first ≤ second) :=
  inferInstanceAs (Decidable (first.toNat ≤ second.toNat))

/-- `LogEvent`, with its level and the content streamed or formatted into it. -/
structure LogEvent where
  level : Level
  content : String
  deriving DecidableEq, Repr

/-- The class of an appender. -/
inductive Kind
  | stdout
  | file (filename : String)
  deriving DecidableEq, Repr

/-- `StdoutLogAppender` and `FileLogAppender`. `out` is what the appender has sent to its stream. -/
structure Appender (Φ : Type) where
  kind : Kind
  level : Level := .debug
  formatter : Option Φ := none
  hasFormatter : Bool := false
  out : List (Φ × LogEvent) := []
  formatter_isSome : hasFormatter = true → formatter.isSome = true := by simp
  deriving DecidableEq, Repr

/-- `Logger`. A logger made by the manager has the root logger behind it, the root logger and a
logger made without the manager have none. -/
structure Logger (Φ : Type) where
  level : Level := .debug
  formatter : Option Φ
  appenders : List (Appender Φ) := []
  root : Option (Logger Φ) := none

variable {Φ : Type}

namespace Appender

/-- `StdoutLogAppender()` -/
def stdout : Appender Φ := { kind := .stdout }

/-- `StdoutLogAppender(fmtter)`. It sets `m_formatter` and leaves `m_hasFormatter` as it is. -/
def stdoutWith (fmtter : Option Φ) : Appender Φ := { kind := .stdout, formatter := fmtter }

/-- `FileLogAppender(filename)` -/
def file (filename : String) : Appender Φ := { kind := .file filename }

/-- `setFormatter` -/
def setFormatter (a : Appender Φ) (fmtter : Option Φ) : Appender Φ :=
  { a with formatter := fmtter, hasFormatter := fmtter.isSome, formatter_isSome := id }

/-- `setLevel` -/
def setLevel (a : Appender Φ) (level : Level) : Appender Φ := { a with level := level }

/-- The appender sends `formatter->format(event)` to its stream. -/
def emit (a : Appender Φ) (formatter : Φ) (event : LogEvent) : Appender Φ :=
  { a with out := a.out ++ [(formatter, event)] }

/-- `StdoutLogAppender::log` and `FileLogAppender::log`; `fallback` is the formatter of the logger.
The file appender has an empty branch where the other one turns to the logger. -/
def log (a : Appender Φ) (fallback : Option Φ) (level : Level) (event : LogEvent) : Appender Φ :=
  if hown : a.hasFormatter = true then
    if a.level ≤ level then a.emit (a.formatter.get (a.formatter_isSome hown)) event else a
  else
    match a.kind with
    | .stdout =>
      match fallback with
      | some formatter => a.emit formatter event
      | none => a
    | .file _ => a

end Appender

namespace Logger

/-- `Logger::log` -/
def log (level : Level) (event : LogEvent) : Logger Φ → Logger Φ
  | ⟨own, formatter, appenders, root⟩ =>
    if own ≤ level then
      if appenders ≠ [] then
        ⟨own, formatter, appenders.map fun a ↦ a.log formatter level event, root⟩
      else
        match root with
        | some root => ⟨own, formatter, appenders, some (log level event root)⟩
        | none => ⟨own, formatter, appenders, none⟩
    else ⟨own, formatter, appenders, root⟩

/-- `CCZOE_LOG_LEVEL`: the event is logged when the statement ends. -/
def streamMacro (logger : Logger Φ) (level : Level) (content : String) : Logger Φ :=
  if logger.level ≤ level then logger.log level ⟨level, content⟩ else logger

/-- `CCZOE_LOG_FMT_LEVEL` -/
def fmtMacro (logger : Logger Φ) (level : Level) (content : String) : Logger Φ :=
  if level ≤ logger.level then logger.log level ⟨level, content⟩ else logger

end Logger

/-! ### The documented rule -/

/-- What an appender of a logger with level `own` and formatter `fallback` is to do with an event:
to emit it when it reaches both levels, with its own formatter or else with the logger's. -/
def Appender.due (own : Level) (fallback : Option Φ) (level : Level) (event : LogEvent)
    (a : Appender Φ) : Appender Φ :=
  if own ≤ level ∧ a.level ≤ level then
    match a.formatter.or fallback with
    | some formatter => a.emit formatter event
    | none => a
  else a

namespace Logger

/-- What a logger is to do with an event. Nothing is right for a logger without appenders that has
no root logger to hand the event to. -/
def rule (level : Level) (event : LogEvent) : Logger Φ → Option (Logger Φ)
  | ⟨own, formatter, appenders, root⟩ =>
    if appenders ≠ [] then
      some ⟨own, formatter, appenders.map (Appender.due own formatter level event), root⟩
    else if own ≤ level then
      match root with
      | some root =>
        (rule level event root).map fun after ↦ ⟨own, formatter, appenders, some after⟩
      | none => none
    else some ⟨own, formatter, appenders, root⟩

/-- The logger has a formatter, and so has its root logger. -/
def Formatted : Logger Φ → Prop
  | ⟨_, formatter, _, root⟩ => formatter.isSome = true ∧
    match root with
    | some root => root.Formatted
    | none => True

/-- An event that reaches the logger's level finds appenders, its own or those of the root logger,
and each of them has the property. -/
def Reaches (level : Level) (property : Option Φ → Appender Φ → Prop) : Logger Φ → Prop
  | ⟨own, formatter, appenders, root⟩ =>
    own ≤ level →
      if appenders ≠ [] then ∀ a ∈ appenders, property formatter a
      else
        match root with
        | some root => root.Reaches level property
        | none => False

end Logger

/-- The appender treats an event of the level as it should: its flag says that it has a formatter,
or it writes to the standard output, its level lets the event pass and its formatter, if any, is the
logger's, or it writes to a file and its level holds the event back. -/
def Appender.Follows (level : Level) (fallback : Option Φ) (a : Appender Φ) : Prop :=
  a.hasFormatter = true ∨
    match a.kind with
    | .stdout => a.level ≤ level ∧ (a.formatter = none ∨ a.formatter = fallback)
    | .file _ => ¬ a.level ≤ level

theorem Appender.emit_ne (a : Appender Φ) (formatter : Φ) (event : LogEvent) :
    a.emit formatter event ≠ a := by
  intro hsame
  have hout : a.out ++ [(formatter, event)] = a.out := congrArg Appender.out hsame
  simp at hout

theorem Appender.emit_inj {a : Appender Φ} {first second : Φ} {event : LogEvent} :
    a.emit first event = a.emit second event ↔ first = second := by
  refine ⟨fun hsame ↦ ?_, fun hsame ↦ hsame ▸ rfl⟩
  have hout : a.out ++ [(first, event)] = a.out ++ [(second, event)] :=
    congrArg Appender.out hsame
  simpa using hout

/-- Assumes: the event reaches the logger's level, and the logger has a formatter. An appender does
what is due exactly when it follows the rule. -/
theorem Appender.due_eq_log_iff {own level : Level} {fallback : Option Φ} (event : LogEvent)
    (hown : own ≤ level) (hfallback : fallback.isSome = true) (a : Appender Φ) :
    a.due own fallback level event = a.log fallback level event ↔ a.Follows level fallback := by
  obtain ⟨formatter, rfl⟩ := Option.isSome_iff_exists.mp hfallback
  by_cases hflag : a.hasFormatter = true
  · obtain ⟨chosen, hchosen⟩ := Option.isSome_iff_exists.mp (a.formatter_isSome hflag)
    refine iff_of_true ?_ (Or.inl hflag)
    by_cases hlevel : a.level ≤ level
    · simp [due, log, hflag, hown, hlevel, hchosen]
    · simp [due, log, hflag, hlevel]
  · cases hkind : a.kind with
    | stdout =>
      by_cases hlevel : a.level ≤ level
      · cases hchosen : a.formatter with
        | none => simp [due, log, Follows, hflag, hown, hlevel, hkind, hchosen]
        | some chosen =>
          simp [due, log, Follows, hflag, hown, hlevel, hkind, hchosen, emit_inj]
      · simp [due, log, Follows, hflag, hlevel, hkind, (a.emit_ne _ _).symm]
    | file filename =>
      by_cases hlevel : a.level ≤ level
      · cases hchosen : a.formatter with
        | none => simp [due, log, Follows, hflag, hown, hlevel, hkind, hchosen, emit_ne]
        | some chosen => simp [due, log, Follows, hflag, hown, hlevel, hkind, hchosen, emit_ne]
      · simp [due, log, Follows, hflag, hlevel, hkind]

/-- Assumes: the event reaches the logger's level, and the logger has a formatter. Nothing is due
exactly when the appender's level holds the event back. -/
theorem Appender.due_eq_self_iff {own level : Level} {fallback : Option Φ} (event : LogEvent)
    (hown : own ≤ level) (hfallback : fallback.isSome = true) (a : Appender Φ) :
    a.due own fallback level event = a ↔ ¬ a.level ≤ level := by
  obtain ⟨formatter, rfl⟩ := Option.isSome_iff_exists.mp hfallback
  by_cases hlevel : a.level ≤ level
  · cases hchosen : a.formatter with
    | none => simp [due, hown, hlevel, hchosen, emit_ne]
    | some chosen => simp [due, hown, hlevel, hchosen, emit_ne]
  · simp [due, hlevel]

namespace Logger

/-- An event is handed to the appenders it reaches, and each changes by `treat`. -/
def deliver (level : Level) (treat : Option Φ → Appender Φ → Appender Φ) : Logger Φ → Logger Φ
  | ⟨own, formatter, appenders, root⟩ =>
    if own ≤ level then
      if appenders ≠ [] then ⟨own, formatter, appenders.map (treat formatter), root⟩
      else
        match root with
        | some root => ⟨own, formatter, appenders, some (root.deliver level treat)⟩
        | none => ⟨own, formatter, appenders, none⟩
    else ⟨own, formatter, appenders, root⟩

theorem log_eq_deliver (level : Level) (event : LogEvent) : ∀ logger : Logger Φ,
    logger.log level event = logger.deliver level fun fallback a ↦ a.log fallback level event
  | ⟨own, formatter, appenders, none⟩ => by
    rw [log, deliver]
  | ⟨own, formatter, appenders, some root⟩ => by
    rw [log, deliver, log_eq_deliver level event root]

theorem deliver_self (level : Level) : ∀ logger : Logger Φ,
    logger.deliver level (fun _ a ↦ a) = logger
  | ⟨own, formatter, appenders, none⟩ => by
    rw [deliver, List.map_id']
    split_ifs <;> rfl
  | ⟨own, formatter, appenders, some root⟩ => by
    rw [deliver, List.map_id', deliver_self level root]
    split_ifs <;> rfl

/-- Below the logger's level nothing is due. -/
theorem map_due_of_not_le {own level : Level} (hlevel : ¬ own ≤ level) (fallback : Option Φ)
    (event : LogEvent) (appenders : List (Appender Φ)) :
    appenders.map (Appender.due own fallback level event) = appenders := by
  have hdue : Appender.due own fallback level event = id :=
    funext fun a ↦ if_neg fun hboth ↦ hlevel hboth.1
  rw [hdue, List.map_id]

/-- Assumes: a treatment of single appenders that is the due one exactly when they have a property.
Then a delivery with it is right exactly when the appenders reached have the property. -/
theorem rule_eq_deliver_iff {level : Level} {event : LogEvent}
    {treat : Option Φ → Appender Φ → Appender Φ} {property : Option Φ → Appender Φ → Prop}
    (hdue : ∀ own fallback a, own ≤ level → fallback.isSome = true →
      (Appender.due own fallback level event a = treat fallback a ↔ property fallback a)) :
    ∀ logger : Logger Φ, logger.Formatted →
      (logger.rule level event = some (logger.deliver level treat) ↔
        logger.Reaches level property)
  | ⟨own, formatter, appenders, root⟩, hformatted => by
    unfold rule deliver Reaches
    unfold Formatted at hformatted
    by_cases hlevel : own ≤ level
    · by_cases hempty : appenders = []
      · cases root with
        | none => simp [hlevel, hempty]
        | some root =>
          have ih := rule_eq_deliver_iff hdue root hformatted.2
          simp only [hlevel, hempty, ne_eq, not_true, if_false, if_true, forall_const, ← ih]
          cases rule level event root with
          | none => simp
          | some after => simp
      · have hpoint (a : Appender Φ) := hdue own formatter a hlevel hformatted.1
        simp only [hlevel, hempty, ne_eq, not_false_eq_true, if_true, forall_const,
          Option.some.injEq, mk.injEq, true_and, and_true, List.map_inj_left, hpoint]
    · simp [hlevel, map_due_of_not_le hlevel]

/-- Assumes: the logger and its root logger have formatters. `Logger::log` is right exactly when
the appenders it reaches follow the rule. -/
theorem rule_eq_log_iff {logger : Logger Φ} (hformatted : logger.Formatted) (level : Level)
    (event : LogEvent) :
    logger.rule level event = some (logger.log level event) ↔
      logger.Reaches level (Appender.Follows level) := by
  rw [log_eq_deliver]
  apply rule_eq_deliver_iff _ logger hformatted
  intro own fallback a hown hfallback
  exact Appender.due_eq_log_iff event hown hfallback a

/-- Assumes: the logger and its root logger have formatters. Dropping an event is right exactly when
the levels of all appenders it reaches hold it back. -/
theorem rule_eq_self_iff {logger : Logger Φ} (hformatted : logger.Formatted) (level : Level)
    (event : LogEvent) :
    logger.rule level event = some logger ↔
      logger.Reaches level fun _ a ↦ ¬ a.level ≤ level := by
  have hself : logger.rule level event = some (logger.deliver level fun _ a ↦ a) ↔
      logger.Reaches level fun _ a ↦ ¬ a.level ≤ level := by
    apply rule_eq_deliver_iff _ logger hformatted
    intro own fallback a hown hfallback
    exact Appender.due_eq_self_iff event hown hfallback a
  rwa [deliver_self] at hself

/-- Which macro an event is logged through. -/
inductive Entry
  | stream
  | fmt
  deriving DecidableEq, Repr

/-- The logger after an event logged through a macro. -/
def logVia (logger : Logger Φ) (level : Level) (content : String) : Entry → Logger Φ
  | .stream => logger.streamMacro level content
  | .fmt => logger.fmtMacro level content

/-- The condition under which an event logged through a macro is treated by the rule. Through the
format macro, an event above the logger's level is dropped, so no appender reached may be due. -/
def Follows (logger : Logger Φ) (level : Level) : Entry → Prop
  | .stream => logger.Reaches level (Appender.Follows level)
  | .fmt =>
    if level ≤ logger.level then logger.Reaches level (Appender.Follows level)
    else logger.Reaches level fun _ a ↦ ¬ a.level ≤ level

theorem log_of_not_le {logger : Logger Φ} {level : Level} (hlevel : ¬ logger.level ≤ level)
    (event : LogEvent) : logger.log level event = logger := by
  obtain ⟨own, formatter, appenders, root⟩ := logger
  unfold log
  exact if_neg hlevel

/-- Assumes: the logger and its root logger have formatters. An event of any level, logged through
either macro, is treated by the documented rule exactly under the condition `Follows`. -/
theorem macro_follows_iff {logger : Logger Φ} (hformatted : logger.Formatted) (level : Level)
    (content : String) (entry : Entry) :
    logger.rule level ⟨level, content⟩ = some (logger.logVia level content entry) ↔
      logger.Follows level entry := by
  cases entry with
  | stream =>
    have hmacro : logger.streamMacro level content = logger.log level ⟨level, content⟩ := by
      by_cases hlevel : logger.level ≤ level
      · exact if_pos hlevel
      · rw [log_of_not_le hlevel]
        exact if_neg hlevel
    rw [logVia, hmacro, rule_eq_log_iff hformatted, Follows]
  | fmt =>
    by_cases hlevel : level ≤ logger.level
    · rw [logVia, fmtMacro, if_pos hlevel, rule_eq_log_iff hformatted, Follows, if_pos hlevel]
    · rw [logVia, fmtMacro, if_neg hlevel, rule_eq_self_iff hformatted, Follows, if_neg hlevel]

/-- A logger of level `DEBUG` with one appender that has its own formatter. -/
def consoleLogger : Logger String where
  formatter := some "%d%T%m%n"
  appenders := [Appender.stdout.setFormatter (some "%m%n")]

/-- An event of level `ERROR` logged through the format macro is lost. -/
theorem fmtMacro_error_lost : consoleLogger.Formatted ∧
    consoleLogger.rule .error ⟨.error, "disk full"⟩ ≠
      some (consoleLogger.logVia .error "disk full" .fmt) := by
  refine ⟨⟨rfl, trivial⟩, fun hsame ↦ ?_⟩
  have hcount := congrArg (Option.map fun logger ↦ logger.appenders.map (·.out.length)) hsame
  exact absurd hcount (by decide)

theorem streamMacro_error_follows : consoleLogger.Formatted ∧
    consoleLogger.rule .error ⟨.error, "disk full"⟩ =
      some (consoleLogger.logVia .error "disk full" .stream) := by
  have hformatted : consoleLogger.Formatted := ⟨rfl, trivial⟩
  refine ⟨hformatted, (macro_follows_iff hformatted .error "disk full" .stream).mpr ?_⟩
  intro _ a ha
  rw [List.mem_singleton.mp ha]
  exact Or.inl rfl

end Logger

end Cczoe.Log
