import Codex.History.Removal
import Codex.History.Diagnostics
import Codex.Rollout.Truncation
import Codex.Rollout.Session
import Codex.ThreadHistory.Agreement
import Codex.ThreadHistory.ItemIds
import Codex.Permissions.Materialize
import Codex.Permissions.Granting
import Codex.Permissions.Additional
import Codex.Sandbox.MountPlan
import Codex.Sandbox.CommandLine
import Codex.Network.Approval
import Codex.Shell.Argv
import Codex.Shell.Approval
import Codex.ExecPolicy.Reload
import Codex.ApplyPatch.Replacements
import Codex.ApplyPatch.Seek
import Codex.ApplyPatch.Safety
import Codex.ApplyPatch.Outline
import Codex.ApplyPatch.PreviewExact
import Codex.Output.DeltaStream
import Codex.Output.Truncate
import Codex.TurnDiff.Coverage
import Codex.StreamParser.Utf8Stream
import Codex.RemoteControl.RoundTrip
import Codex.RemoteControl.Retransmission
import Codex.RemoteControl.Closing
import Codex.Tui.PasteBurst
import Codex.Tui.MixedUrlWrap
import Codex.MessageHistory
import Codex.FuzzyMatch
import Codex.Goals
import Codex.Readiness
import Codex.ExecServer.Reads
import Codex.ExecServer.Sessions
import Codex.ExecServer.Shutdown
import Codex.AppServer.PublishedStatus
