import Mathlib.Tactic.Common
import Mathlib.Logic.Function.Basic

/-!
# Event readers (`src/driver/interrupts.c`)

The interrupt handler leaves events for up to eight register handles, the readers. Each reader
number is a slot: one bit of `active_readers` that says it is taken, and one word of pending
events. Everything the driver does to a slot is a single atomic operation, and these are
modelled one by one, so that whatever runs between two of them runs between two steps here.

`linux/atomic.h` gives the word an `int`; only its 32 bits matter.
-/

namespace AmcPci

/-- `N_EVENT_READERS`. -/
def nEventReaders : Nat := 8

/-- A reader number. -/
abbrev Reader := Fin nEventReaders

/-- The part of `struct interrupt_control` the readers share. -/
structure InterruptControl where
  events : Reader → BitVec 32
  activeReaders : Reader → Bool

/-- Zeroed by `kzalloc`. -/
def InterruptControl.initial : InterruptControl := ⟨fun _ => 0, fun _ => false⟩

namespace InterruptControl

/-- `test_and_set_bit(bit, &interrupts->active_readers)`: the old bit, and the bit set. -/
def testAndSetBit (control : InterruptControl) (bit : Reader) : Bool × InterruptControl :=
  (control.activeReaders bit,
    { control with activeReaders := Function.update control.activeReaders bit true })

/-- `clear_bit`, the whole of `unassign_reader_number`. -/
def clearBit (control : InterruptControl) (bit : Reader) : InterruptControl :=
  { control with activeReaders := Function.update control.activeReaders bit false }

/-- `atomic_set(&control->events[reader], events)`. -/
def atomicSet (control : InterruptControl) (reader : Reader) (events : BitVec 32) :
    InterruptControl :=
  { control with events := Function.update control.events reader events }

/-- `atomic_or(events, &control->events[reader])`. -/
def atomicOr (control : InterruptControl) (events : BitVec 32) (reader : Reader) :
    InterruptControl :=
  control.atomicSet reader (control.events reader ||| events)

/-- `interrupt_events_ready`: an `atomic_read`, taken as a `bool`. -/
def interruptEventsReady (control : InterruptControl) (reader : Reader) : Bool :=
  control.events reader != 0

/-- `atomic_xchg(&control->events[reader], 0)`. -/
def atomicXchg (control : InterruptControl) (reader : Reader) : BitVec 32 × InterruptControl :=
  (control.events reader, control.atomicSet reader 0)

end InterruptControl

end AmcPci
