import Paraleon.Switch.Mmu

/-!
# The configuration of a switch in `third.cc`

The part of `main` that configures the MMU: three bandwidth-delay products of
headroom for each port, a threshold shift by link speed, and the buffer size.
-/

namespace Paraleon.Switch

/-- The rate of a device in bit/s and the delay of its channel in ns. -/
structure LinkSpeed where
  rate : UInt64
  delay : UInt64

/-- The headroom of a port, cut to 32 bits. -/
def LinkSpeed.headroom (l : LinkSpeed) : UInt32 :=
  (l.rate * l.delay / 8 / 1000000000 * 3).toUInt32

/-- The threshold shift: from `shift`, one less for each halving it takes to
bring the rate down to that of the NICs. -/
def pfcShift (nicRate : UInt64) : Nat → UInt64 → UInt32
  | 0, _ => 0
  | shift + 1, rate =>
    if nicRate < rate then pfcShift nicRate shift (rate / 2) else UInt32.ofNat (shift + 1)

/-- The configuration of a switch with the ports `1` to `nPort`. The buffer size
is given in MiB. -/
def configSwitch (nicRate : UInt64) (bufferSize : UInt32) (nPort : Port) (link : Port → LinkSpeed) :
    MmuConfig :=
  let c := (MmuConfig.ports nPort).foldl (fun c j =>
    { c.configHdrm j (link j).headroom with
      pfcAShift := Function.update c.pfcAShift j (pfcShift nicRate 3 (link j).rate) })
    MmuConfig.create
  (c.configNPort nPort).configBufferSize (bufferSize * 1024 * 1024)

end Paraleon.Switch
