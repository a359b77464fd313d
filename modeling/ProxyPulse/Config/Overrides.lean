import ProxyPulse.Config

/-!
Settings that outrank the file: the flags of the command line and the last toggle of the sort mode.
They are written over every configuration that comes in, so a change of the file never undoes them.
-/

namespace ProxyPulse

structure Overrides where
  controllerUrl : Option String := none
  secret : Option String := none
  sortByDelay : Option Bool := none
  deriving DecidableEq, Repr

namespace Overrides

def apply (o : Overrides) (c : Config) : Config :=
  { c with
    runtime := { c.runtime with
      controllerUrl := o.controllerUrl.getD c.runtime.controllerUrl
      secret := o.secret.or c.runtime.secret }
    view := { c.view with sortByDelay := o.sortByDelay.getD c.view.sortByDelay } }

def isEmpty (o : Overrides) : Bool :=
  o == {}

end Overrides

end ProxyPulse
