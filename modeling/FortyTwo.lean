import FortyTwo.PushSwap.Sorting
import FortyTwo.Webserv.Containment
import FortyTwo.Webserv.ResponseFraming
import FortyTwo.Webserv.HeaderFields
import FortyTwo.Webserv.UploadRun
import FortyTwo.Webserv.MultipartSegmentation
import FortyTwo.Webserv.ChunkStreaming
import FortyTwo.Webserv.Pipelining
import FortyTwo.Webserv.AnsweredOnce
import FortyTwo.Minishell.Expansion
import FortyTwo.Minishell.LineRoundTrip
import FortyTwo.Minishell.DescriptorDiscipline
import FortyTwo.Webserv.ConfigLayout
import FortyTwo.Webserv.BodyLimit
import FortyTwo.Webserv.CgiPassThrough
import FortyTwo.SoLong.Winnability
import FortyTwo.Cub3d.Raycast
import FortyTwo.Cub3d.Movement
import FortyTwo.PmergeMe.Comparisons
import FortyTwo.GetNextLine.Independence
import FortyTwo.Printf.Formatting
import FortyTwo.Webserv.SessionHistory
import FortyTwo.Webserv.HeadFraming
import FortyTwo.Webserv.HeaderTermination
import FortyTwo.Webserv.IOCGIHandler
import FortyTwo.Philosophers.Silence
import FortyTwo.Philosophers.Deadline
import FortyTwo.Webserv.ContentLength
import FortyTwo.Webserv.RawBodyAccounting
import FortyTwo.Webserv.ContentTypeField
import FortyTwo.Webserv.AcceptTermination
import FortyTwo.Foundation.Utf8
import FortyTwo.Webserv.PercentDecoding
import FortyTwo.Webserv.QueryRoundTrip
import FortyTwo.Webserv.MultipartBound
import FortyTwo.Webserv.CgiHeaderSplit
import FortyTwo.Webserv.PartHeaderFields
import FortyTwo.Webserv.CookieLookup
import FortyTwo.Webserv.CgiRouting
import FortyTwo.Webserv.DirectoryListing
import FortyTwo.Webserv.ConfigListen
import FortyTwo.Webserv.ConfigPaths
import FortyTwo.Webserv.DolbayobPTR
import FortyTwo.Webserv.PathNormalization
import FortyTwo.PushSwap.Numbers
import FortyTwo.SoLong.MapAcceptance
import FortyTwo.Cub3d.FileCheck
import FortyTwo.Cub3d.FileLines
import FortyTwo.Minishell.CommandArray
import FortyTwo.Minishell.ExpansionSafety
import FortyTwo.Minishell.QuoteRemoval
import FortyTwo.Minishell.RedirectionSpacing
import FortyTwo.Minishell.BuiltinMisuse
import FortyTwo.Minishell.ExportListing
import FortyTwo.Minishell.Echo
import FortyTwo.Pipex.Quoting
import FortyTwo.Cpp.RPN
import FortyTwo.Cpp.ExchangeRates
import FortyTwo.Cpp.Span
import FortyTwo.Cpp.Replacement
import FortyTwo.Webserv.TokenTest
import FortyTwo.Cub3d.Split
import FortyTwo.Libft.Decimal
import FortyTwo.Libft.Memmove
import FortyTwo.Webserv.CgiLifetime
import FortyTwo.Philosophers.Cycle
import FortyTwo.Webserv.SessionAnswers
import FortyTwo.Webserv.ServedFiles
import FortyTwo.Minishell.PipelineWiring
import FortyTwo.PushSwap.InstructionCount
import FortyTwo.Webserv.Downloads
import FortyTwo.Libft.ListOwnership
import FortyTwo.Libft.Strings
import FortyTwo.Pipex.Running
import FortyTwo.Foundation.GridRay
