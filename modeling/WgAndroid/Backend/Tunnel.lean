import WgAndroid.Java.Text
import WgAndroid.Lib.Regex

/-!
# Tunnels

The interface between the tunnels and the backends: the states of a tunnel, the names that a tunnel
may have and what a backend throws.
-/

namespace WgAndroid

/-- `Tunnel.State` -/
inductive TunnelState where
  | down
  | toggle
  | up
  deriving DecidableEq, Repr

/-- `State.of` -/
def TunnelState.of (running : Bool) : TunnelState := if running then .up else .down

@[simp] theorem TunnelState.of_true : of true = .up := rfl

@[simp] theorem TunnelState.of_false : of false = .down := rfl

/-- `Tunnel.NAME_PATTERN`: `[a-zA-Z0-9_=+.-]{1,15}`. -/
def namePattern : Regex UInt16 :=
  .between (.cls fun c => isAlnum c || (text "_=+.-").contains c) 1 15

def isNameInvalid (name : JString) : Bool := !namePattern.accepts name

/-- What a backend throws: a `BackendException` with its reason, or an exception of the platform. -/
inductive BackendException where
  | wgQuickConfigErrorCode (code : Int)
  | tunnelMissingConfig
  | vpnNotAuthorized
  | unableToStartVpn
  | tunCreationError
  | goActivationErrorCode (code : Int)
  | dnsResolutionFailure (host : JString)
  | platform
  deriving DecidableEq

end WgAndroid
