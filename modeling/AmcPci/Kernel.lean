import Mathlib.Tactic.Common

/-!
# What the driver takes from the kernel

The error numbers. A kernel function that returns `int` or `ssize_t` is modelled as returning
an `Int`, so `return -EINVAL;` is the value `-einval`, and `rc < 0` is the test the source makes.
-/

namespace AmcPci

/-- The engine or the PROM is not as it should be, every board number or reader slot is taken, or a
    read asks for too little. -/
def eio : Int := 5
/-- The board is being removed, or is not there. -/
def enxio : Int := 6
/-- The PROM has more entries than a board has minors. -/
def e2big : Int := 7
/-- There are no events, for a read that does not wait. -/
def eagain : Int := 11
/-- An allocation has come back with nothing. -/
def enomem : Int := 12
/-- The file is opened for what the PROM does not permit. -/
def eacces : Int := 13
/-- A copy to or from the user has got nowhere, or the position is outside the region. -/
def efault : Int := 14
/-- The registers are locked, or somebody else has them open. -/
def ebusy : Int := 16
/-- An argument, an alignment or a minor makes no sense. -/
def einval : Int := 22
/-- A signal has ended a wait. -/
def erestartsys : Int := 512

end AmcPci
