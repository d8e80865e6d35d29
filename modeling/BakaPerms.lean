import BakaPerms.Access
import BakaPerms.AclStore
import BakaPerms.Ancestry
import BakaPerms.Answers
import BakaPerms.AnyOrder
import BakaPerms.Cache
import BakaPerms.CommandCalls
import BakaPerms.Columns
import BakaPerms.Commands
import BakaPerms.Concurrent
import BakaPerms.Crash
import BakaPerms.Decision
import BakaPerms.Deletion
import BakaPerms.Format
import BakaPerms.Generations
import BakaPerms.Grants
import BakaPerms.GroupNames
import BakaPerms.GroupStore
import BakaPerms.Handlers
import BakaPerms.Hierarchy
import BakaPerms.Identities
import BakaPerms.Integrity
import BakaPerms.Isolation
import BakaPerms.Lib.Locked
import BakaPerms.Lib.Rules
import BakaPerms.Lib.Search
import BakaPerms.Linearization
import BakaPerms.Listings
import BakaPerms.Locality
import BakaPerms.Manager
import BakaPerms.NodePath
import BakaPerms.Outcomes
import BakaPerms.Overflow
import BakaPerms.Positions
import BakaPerms.Preview
import BakaPerms.Provenance
import BakaPerms.Reachability
import BakaPerms.Reordering
import BakaPerms.Reports
import BakaPerms.Sequential
import BakaPerms.Server
import BakaPerms.SharedStore
import BakaPerms.Specification
import BakaPerms.Statements
import BakaPerms.Token
import BakaPerms.TornReads
import BakaPerms.Trace
import BakaPerms.WriteACL
