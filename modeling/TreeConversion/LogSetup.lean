/-!
# Setting up logs
-/

namespace TreeConversion

/-- How events are to be logged. -/
structure LogSetup where
  serviceName : String
  /-- Whether each event is written as a JSON object. -/
  json : Bool
  /-- The filter that holds where the surroundings set none. -/
  filter : String
  deriving DecidableEq

namespace LogSetup

def standard : LogSetup := ⟨"treebridge", false, "info"⟩

/-- The standard setup for a service. -/
def forService (name : String) : LogSetup := { standard with serviceName := name }

end LogSetup

end TreeConversion
