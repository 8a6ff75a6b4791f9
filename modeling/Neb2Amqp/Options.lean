import Neb2Amqp.Library.CString

/-!
# Module options

`struct options` without the queue, which is part of the state of the module,
and without the Nagios handle. `int` members are 32 bits wide.
-/

namespace Neb2Amqp

open CLib

structure Options where
  hostname : Option CString
  port : Int32
  maxSize : Int32
  autosync : Int32
  autoflush : Int32
  flushInterval : Int32
  rate : Int32
  flush : Int32
  purge : Int32
  cacheSize : Int32
  cacheFile : Option CString
  userid : Option CString
  password : Option CString
  virtualHost : Option CString
  exchangeName : Option CString
  exchangeType : Option CString
  connector : Option CString
  eventsourceName : Option CString
  hostgroups : Int32
  servicegroups : Int32
  acknowledgement : Int32
  downtime : Int32
  customVariables : Int32
  urls : Int32
  amqpWaitTime : Int32
  logLevel : Int32
  deriving DecidableEq

/-- The values `nebmodule_init` sets before it parses the module arguments.
`urls` keeps the zero every static object starts with. -/
def Options.default : Options where
  hostname := some (.lit "127.0.0.1")
  port := 5672
  maxSize := 8192
  autosync := 60
  autoflush := 60
  flushInterval := 5
  rate := 5000
  flush := -1
  purge := 0
  cacheSize := 10000
  cacheFile := some (.lit "/tmp/neb2amqp.cache")
  userid := some (.lit "guest")
  password := some (.lit "guest")
  virtualHost := some (.lit "canopsis")
  exchangeName := some (.lit "canopsis.events")
  exchangeType := none
  connector := some (.lit "nagios")
  eventsourceName := some (.lit "Central")
  hostgroups := 0
  servicegroups := 0
  acknowledgement := 0
  downtime := 0
  customVariables := 0
  urls := 0
  amqpWaitTime := 10
  logLevel := 0

end Neb2Amqp
