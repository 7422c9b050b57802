import SignOff.Settings.Basic

/-!
# Layers of settings

A layer gives a value to some of the settings. Laid over a complete set, it replaces exactly those;
of several layers the one laid on last wins, for each setting on its own.
-/

namespace SignOff

/-- Values for some of the settings. -/
structure Patch where
  databaseUrl : Option String := none
  maxConnections : Option Nat := none
  timeoutSecs : Option Nat := none
  bindAddress : Option String := none
  port : Option Nat := none
  shutdownSecs : Option Nat := none
  bulkMaxItems : Option Nat := none
  dateFormat : Option String := none
  logLevel : Option String := none
  logFormat : Option LogFormat := none
deriving DecidableEq, Repr

/-- The layer without values. -/
def Patch.empty : Patch := {}

/-- The settings under a layer. -/
def Settings.patched (s : Settings) (p : Patch) : Settings :=
  { databaseUrl := p.databaseUrl.getD s.databaseUrl
    maxConnections := p.maxConnections.getD s.maxConnections
    timeoutSecs := p.timeoutSecs.getD s.timeoutSecs
    bindAddress := p.bindAddress.getD s.bindAddress
    port := p.port.getD s.port
    shutdownSecs := p.shutdownSecs.getD s.shutdownSecs
    bulkMaxItems := p.bulkMaxItems.getD s.bulkMaxItems
    dateFormat := p.dateFormat.getD s.dateFormat
    logLevel := p.logLevel.getD s.logLevel
    logFormat := p.logFormat.getD s.logFormat }

end SignOff
