import SafeNetwork.Types
import SafeNetwork.Knowledge
import SafeNetwork.Messages
import SafeNetwork.Entropy
import SafeNetwork.Handler
import SafeNetwork.Concurrent
import SafeNetwork.History
import SafeNetwork.Validate
import SafeNetwork.BackPressure
import SafeNetwork.Exchange
import SafeNetwork.Config
import SafeNetwork.Updates
import SafeNetwork.Send
import SafeNetwork.Convergence
import SafeNetwork.Catchup
import SafeNetwork.Commute
import SafeNetwork.Network
import SafeNetwork.Liveness
