import Tay.Executor.Protocol
import Tay.Foundation.Double
import Tay.Schedule.Commands
import Tay.Schedule.Occurrence

/-!
# Declaring a schedule

`Tay.Schedule.new` reads a declaration as it comes off the wire: what to run, with which arguments, when
for the first time, and when again. An interval starts at the time asked for. A cron expression is
searched from one minute before that time, since the search looks for a time strictly later; and since it
goes by whole minutes, it begins with the minute the start falls into, which is earlier than the start
unless that is a whole minute.

The search raises where the calendar ends. A declaration can ask for any start, and an expression need
not have an occurrence.
-/

open Foundation

namespace Tay.Declaration

open V2 Engine Protocol

inductive Failure
  | invalidSchedule
  /-- The process that ran the code is gone. -/
  | raised
  deriving DecidableEq

/-! ## Amounts -/

def isNumber : Value → Bool
  | .int _ | .float _ => true
  | _ => false

def isNonnegative : Value → Bool
  | .int n => 0 ≤ n
  | .float bits => (Double.ofBits bits.toNat).isNonnegative
  | _ => false

def isPositive : Value → Bool
  | .int n => 0 < n
  | .float bits => (Double.ofBits bits.toNat).isPositive
  | _ => false

def atMost (amount : Value) (n : ℤ) : Bool :=
  match amount with
  | .int m => m ≤ n
  | .float bits => (Double.ofBits bits.toNat).atMost n
  | _ => false

/-- `round(amount * k)` -/
def scaled (amount : Value) (k : ℕ) : ℤ :=
  match amount with
  | .int m => m * k
  | .float bits => ((Double.ofBits bits.toNat).times k).round
  | _ => 0

/-! ## Fields -/

/-- `@fields` -/
def knownFields : List String :=
  ["task", "args", "cron", "every", "timezone", "catch_up", "overlap", "declaration_id", "delay",
    "start_at", "options"]

def validFields? (fields : Message) : Bool :=
  fields.all fun e ↦ knownFields.any fun key ↦ e.1 == .str (text key)

/-- `Map.get(fields, key)` -/
def field (fields : Message) (key : String) : Value := (Message.get? fields key).getD .null

def overlapOption (fields : Message) : Option Overlap :=
  let value := (Message.get? fields "overlap").getD (.str (text "skip"))
  [Overlap.allow, .skip, .queue].find? fun choice ↦ choice.toValue == value

def catchUpOption (fields : Message) : Option CatchUp :=
  let value := (Message.get? fields "catch_up").getD (.str (text "latest"))
  [CatchUp.latest, .all].find? fun choice ↦ choice.toValue == value

/-- `first_at` -/
def firstAt (fields : Message) (now : ℕ) : Option ℤ :=
  match field fields "delay", field fields "start_at" with
  | .null, .null => some now
  | delay, .null =>
    if isNumber delay && isNonnegative delay && atMost delay ((maxTime - now : ℤ).tdiv 1000) then
      some (now + scaled delay 1000)
    else none
  | .null, .int start => if 0 ≤ start then some start else none
  | _, _ => none

def multiplier (unit : Value) : Option ℕ :=
  ([("seconds", 1000), ("minutes", 60000), ("hours", 3600000), ("days", 86400000)].find? fun e ↦
    Value.str (text e.1) == unit).map Prod.snd

def interval (every : Message) : Option ℕ :=
  match every.filter fun e ↦ e.2 != .null with
  | [(unit, amount)] =>
    if isNumber amount && isPositive amount then
      (multiplier unit).bind fun k ↦
        if atMost amount ((maxTime : ℤ).tdiv k) && decide (0 < scaled amount k) then
          some (scaled amount k).toNat
        else none
    else none
  | _ => none

/-! ## The first occurrence -/

/-- What `timing` decides. -/
structure Timed where
  expression : Expression CronExpression
  trigger : Trigger
  timezone : Option Binary
  nextAt : ℤ

/-- `Cron.next(parsed, first - 60_000)`, which refuses a negative time. -/
def firstOccurrence (c : CronExpression) (first : ℤ) : Except Failure ℤ :=
  if 60000 ≤ first then
    match CronExpression.next c (first - 60000).toNat with
    | .ok t => .ok t
    | .error .noNextOccurrence => .error .invalidSchedule
    | .error .raised => .error .raised
  else .error .invalidSchedule

def timing (fields : Message) (now : ℕ) : Except Failure Timed :=
  match field fields "cron", field fields "every" with
  | .str cron, .null =>
    match (Message.get? fields "timezone").getD (.str (text "+00")) with
    | .str timezone =>
      match CronExpression.parse cron timezone, firstAt fields now with
      | .ok c, some first =>
        (firstOccurrence c first).map fun nextAt ↦ ⟨.cron c, .cron cron, some timezone, nextAt⟩
      | _, _ => .error .invalidSchedule
    | _ => .error .invalidSchedule
  | .null, .map every =>
    match interval every, firstAt fields now with
    | some n, some first => .ok ⟨.every n, .every n, none, first⟩
    | _, _ => .error .invalidSchedule
  | _, _ => .error .invalidSchedule

/-! ## Declarations -/

/-- The schedule with its runtime expression. -/
structure Accepted where
  schedule : Declared
  expression : Expression CronExpression
  deriving DecidableEq

/-- What is checked before the timing. -/
structure Checked where
  task : Binary
  args : Message
  overlap : Overlap
  catchUp : CatchUp

def checked (id : Binary) (fields : Message) : Option Checked := do
  guard (validFields? fields)
  guard (identifier? id)
  let .str task := field fields "task" | none
  guard (key? task)
  let .map args := (Message.get? fields "args").getD (.map []) | none
  guard (jsonValue? (.map args))
  let overlap ← overlapOption fields
  let catchUp ← catchUpOption fields
  return ⟨task, args, overlap, catchUp⟩

/-- `new`. Whatever is wrong, the answer is the same. -/
def new (id : Binary) (fields : Message) (now : ℕ) : Except Failure Accepted :=
  match checked id fields with
  | none => .error .invalidSchedule
  | some c =>
    (timing fields now).bind fun t ↦
      if 0 ≤ t.nextAt ∧ t.nextAt ≤ maxTime then
        .ok ⟨⟨id, ⟨.map c.args, c.catchUp, t.trigger, (Message.get? fields "options").getD (.map []), c.overlap,
          c.task, t.timezone⟩, 0, now, t.nextAt.toNat, none, none, none⟩, t.expression⟩
      else .error .invalidSchedule

/-! ## What a declaration asks for -/

variable {id : Binary} {fields : Message} {now : ℕ} {c : CronExpression} {first : ℤ}

/-- A declaration in order that makes the search begin with this expression and start. -/
structure Searches (id : Binary) (fields : Message) (now : ℕ) (c : CronExpression) (first : ℤ) : Prop where
  checked : (checked id fields).isSome
  cron : ∃ cron timezone, field fields "cron" = .str cron ∧
    (Message.get? fields "timezone").getD (.str (text "+00")) = .str timezone ∧
    CronExpression.parse cron timezone = .ok c
  every : field fields "every" = .null
  start : firstAt fields now = some first
  late : 60000 ≤ first

/-- The two ways a first occurrence comes about. -/
inductive Timing (id : Binary) (fields : Message) (now : ℕ) : Except Failure Timed → Prop
  | refused : Timing id fields now (.error .invalidSchedule)
  | interval {t : Timed} : firstAt fields now = some t.nextAt → Timing id fields now (.ok t)
  | found {c : CronExpression} {first : ℤ} {t : Timed} : Searches id fields now c first →
      c.next (first - 60000).toNat = .ok t.nextAt → Timing id fields now (.ok t)
  | raised {c : CronExpression} {first : ℤ} : Searches id fields now c first →
      c.next (first - 60000).toNat = .error .raised → Timing id fields now (.error .raised)

/-- Every minute, from a time on. -/
def Sample.starting (startAt : ℤ) : Message :=
  [(.str (text "cron"), .str (text "* * * * *")), (.str (text "start_at"), .int startAt),
    (.str (text "task"), .str (text "w"))]

end Tay.Declaration
