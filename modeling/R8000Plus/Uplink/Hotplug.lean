import Mathlib.Tactic

/-!
What a script under hotplug.d/iface works on: the action and the interface it is
called for, and the status that `ubus call network.interface.X status` prints.
-/

namespace R8000Plus.Uplink

/-- The value of a shell variable; one that is not set is empty. -/
abbrev Text := List Char

/-- A name that UCI accepts for a section, so also one of an interface. -/
structure UciName where
  text : Text
  valid : text.all (fun c => c.isAlphanum || c == '_') = true
  deriving DecidableEq

inductive Action where
  | ifup
  | ifdown
  | ifupdate
  deriving DecidableEq

structure RouteEntry where
  target : Text
  nexthop : Text

/-- The status of an interface that is up. -/
structure Status where
  l3Device : Text
  route : List RouteEntry
  inactiveRoute : List RouteEntry
  /-- An interface comes up on a device. -/
  device_nonempty : l3Device ≠ []

/-- The active route first, then the inactive one. -/
def Status.gateway (st : Status) : Text :=
  (((st.route ++ st.inactiveRoute).filter (·.target = "0.0.0.0".toList)).map (·.nexthop)).headD []

end R8000Plus.Uplink
