import Pros.Lib.Types

/-!
# I/O ports

The devices behind the ports are not part of the kernel. `PortBus` is what they do when the kernel writes to
a port or reads from one.
-/

namespace Pros

/-- Devices with states in `σ`. -/
structure PortBus (σ : Type) where
  /-- `outb`, as in `Port8Bit::write`. -/
  outb : σ → (portNumber : U16) → (data : U8) → σ
  /-- `inb`, as in `Port8Bit::read`. -/
  inb : σ → (portNumber : U16) → U8 × σ
  /-- `inw`, as in `Port16Bit::read`. -/
  inw : σ → (portNumber : U16) → U16 × σ

end Pros
