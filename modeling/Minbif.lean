import Minbif.Irc.ReadIO
import Minbif.Irc.View
import Minbif.Im.AuthHistory
import Minbif.Im.AuthGenerate
import Minbif.World.Reached
import Minbif.World.Enqueued
import Minbif.World.Join
import Minbif.World.Ban
import Minbif.World.Nested
import Minbif.World.Sound
import Minbif.World.Attribution
import Minbif.World.Pictured
import Minbif.World.Texts
import Minbif.Irc.RoundTrip
import Minbif.Irc.ConvEntity
import Minbif.Irc.FileNames
import Minbif.Irc.Quitting
import Minbif.ServerPoll.Emitted
import Minbif.ServerPoll.Broadcast
import Minbif.Lib.Lossless
import Minbif.Sock.SockWrap
import Minbif.Im.Reconnection
import Minbif.Im.Request
import Minbif.Im.RequestQueue
import Minbif.Core.Config
import Minbif.Core.ConfigReading
import Minbif.Core.ConfigDefaults
import Minbif.Core.ConfigLoaded
import Minbif.Core.ConfigComplete
import Minbif.Core.Rehash
import Minbif.Core.ConfigWritten
import Minbif.Core.RoundTrip
import Minbif.Im.JoinQueue
import Minbif.Irc.DccOffer
import Minbif.Irc.DccSending
import Minbif.World.MapPresence
import Minbif.Im.NameScan
import Minbif.Irc.DccAcks
import Minbif.Im.ReconnectDelay
import Minbif.World.StatusTopic
import Minbif.Im.FormAnswers
import Minbif.World.Participants
import Minbif.World.ChatIndex
import Minbif.World.ChatRename
import Minbif.Im.AccountSettings
import Minbif.World.MapRefused
import Minbif.Core.Tokeniser
import Minbif.Irc.ArgCalls
import Minbif.Irc.Phrases
import Minbif.Core.PortRange
import Minbif.Irc.UserDirs
import Minbif.Irc.NamesReply
import Minbif.World.ContactNicks
import Minbif.Core.MarkupText
import Minbif.World.Deletions
import Minbif.World.Displaced
import Minbif.World.Losses
import Minbif.World.Timers
import Minbif.Core.MarkupReturn
import Minbif.Irc.Keepalive
import Minbif.Core.MarkupLooks
import Minbif.ServerPoll.Descriptors
import Minbif.ServerPoll.Sharing
import Minbif.Core.Log
import Minbif.Irc.Settings
import Minbif.ServerPoll.Attached
import Minbif.Core.MarkupLines
import Minbif.Im.Messages
import Minbif.Im.Relay
import Minbif.Irc.DccTransfer
import Minbif.Irc.PublicMsgs
import Minbif.World.Sites
import Minbif.World.Away
import Minbif.World.Echo
import Minbif.World.ChatParameters
import Minbif.World.Who
