import Onisin.Lib.Ranges
import Onisin.Lib.LittleEndian
import Onisin.Lib.Runs
import Onisin.Lib.Text
import Onisin.Lib.Json
import Onisin.Mem.Format
import Onisin.Mem.FormatLaws
import Onisin.Mem.RoundTrip
import Onisin.Mem.Store
import Onisin.Mem.Recovery
import Onisin.Mem.Open
import Onisin.Mem.TailRepair
import Onisin.Mem.Append
import Onisin.Mem.Crash
import Onisin.Mem.Runs
import Onisin.Mem.Refinement
import Onisin.Mlx.KvSlot
import Onisin.Mlx.Attention
import Onisin.Mlx.KvCache
import Onisin.Mlx.Forward
import Onisin.Mlx.Speculative
import Onisin.Mlx.ToolFmt
import Onisin.Mlx.Prompt
import Onisin.Mlx.ReusablePrefix
import Onisin.Mlx.Tokenizer
import Onisin.Mlx.PrefixCache
import Onisin.Mlx.Routing
import Onisin.Lib.Dict
import Onisin.Lib.JsonText
import Onisin.Lib.Js
import Onisin.Lib.Parsing
import Onisin.Lib.Decimal
import Onisin.Lib.JsonParse
import Onisin.Lib.JsNumber
import Onisin.Lib.DoubleText
import Onisin.Lib.RustNumber
import Onisin.Dsl.Domain
import Onisin.Dsl.DomainParser
import Onisin.Dsl.DomainGrammar
import Onisin.Dsl.DomainCorrect
import Onisin.Dsl.DomainLexer
import Onisin.Dsl.Editor
import Onisin.Dsl.EditorLexer
import Onisin.Dsl.EditorCorrect
import Onisin.Dsl.View
import Onisin.Dsl.ViewGrammar
import Onisin.Dsl.ViewCorrect
import Onisin.Dsl.FilterExamples
import Onisin.Gql.Data
import Onisin.Gql.Statements
import Onisin.Gql.Teaching
import Onisin.Gql.Rows
import Onisin.Svc.Config
import Onisin.Iam.AuthCode
import Onisin.Ui.ChatEvents
import Onisin.Ui.Envelope
import Onisin.Ui.DetailRenderer
import Onisin.Ui.DetailSave
import Onisin.Lib.Process
import Onisin.Agent.Context
import Onisin.Agent.Tools
import Onisin.Agent.Prompt
import Onisin.Agent.Chat
import Onisin.Agent.Transcript
import Onisin.Agent.Turn
import Onisin.Agent.Phases
import Onisin.Agent.Cancel
import Onisin.Lib.Paging
import Onisin.Mem.StreamEvents
import Onisin.Ai.Chunks
import Onisin.Gql.DomainStore
import Onisin.Ui.Tabs
import Onisin.Ui.TabsInvariant
import Onisin.Ui.ChatPersistence
import Onisin.Lib.Incremental
import Onisin.Mlx.Generation
import Onisin.Infer.Chat
import Onisin.Mlx.Streaming
import Onisin.Mlx.Accelerated
import Onisin.Mlx.Rollback
import Onisin.Ai.Backfill
import Onisin.Ui.TabsClose
import Onisin.Ui.TabIdentity
import Onisin.Mem.Search
import Onisin.Ui.LogStore
import Onisin.Ui.Resolver
import Onisin.Lib.Marker
import Onisin.Mlx.ToolParse
import Onisin.Mlx.ToolRoundTrip
import Onisin.Mlx.QwenCalls
import Onisin.Gql.Query
import Onisin.Ui.ViewRenderer
import Onisin.Lib.Grouping
import Onisin.Mem.Episodes
import Onisin.Bench.Watch
import Onisin.Gql.Permissions
import Onisin.Lib.Like
import Onisin.Gql.Contains
import Onisin.Lib.Path
import Onisin.Bench.Roots
import Onisin.Lib.Dependencies
import Onisin.Pipeline.Validator
import Onisin.Lib.Suffixes
import Onisin.Gql.FilterArgs
import Onisin.Lib.GraphQLString
import Onisin.Gql.StringLiteral
import Onisin.Lib.JsCoerce
import Onisin.Gql.BuildMutation
import Onisin.Lib.GraphQLDocument
import Onisin.Gql.EffectiveMutation
import Onisin.Ui.DetailAliases
import Onisin.Mem.ArbitraryBytes
import Onisin.Lib.Occurrences
import Onisin.Ui.ContainsWord
import Onisin.Mlx.TruncatedCall
import Onisin.Mlx.QwenPrompt
import Onisin.Lib.KeepFirst
import Onisin.Dsl.Aliases
import Onisin.Lib.Utf8
import Onisin.Bench.ReadFile
import Onisin.Lib.DepthFirst
import Onisin.Run.Config
import Onisin.Lib.Url
import Onisin.Iam.LoginRedirect
import Onisin.Run.Supervisor
import Onisin.Run.Supervision
import Onisin.Lib.Base64
import Onisin.Lib.JsonRoundTrip
import Onisin.Mem.LossyText
import Onisin.Iam.SessionToken
import Onisin.Iam.Desktop
import Onisin.Iam.SignIn
import Onisin.Iam.Users
import Onisin.Iam.Service
import Onisin.Lib.Sql
import Onisin.Lib.SqlRun
import Onisin.Gql.Meaning
import Onisin.Gql.CreateTable
import Onisin.Gql.RecordStore
